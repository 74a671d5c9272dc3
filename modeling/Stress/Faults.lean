import Stress.AnomalyInjector
import Stress.Denotation

/-!
# What the anomalies send

`InjectorPerformer` writes the anomalies of a text as quoted strings and runs of
hexadecimal digits, which the states of the leaves read back.  A quoted string gives its
text back whatever backslashes are in it, since the text itself has no quote.

The digits are read in pairs.  The numbers of `stringInjectionNONASCII` have two digits
each.  Those of `stringInjectionRANDOMFUZZ` below 16 are written with one digit, and shift
the pairs of all numbers behind.
-/

namespace Stress

namespace InjectorPerformer

/-! ## Runs of digits -/

theorem showHex_of_le {n : Nat} (h : 16 ≤ n) :
    showHex n = [showHexDigit (n / 16), showHexDigit (n % 16)] := by
  rw [showHex, if_neg (by omega)]

theorem isHexDigit_of_mem_showHex {n : Nat} (hn : n < 256) :
    ∀ d ∈ showHex n, isHexDigit d = true := by
  intro d hd
  rw [showHex] at hd
  split at hd
  · next h =>
      rw [List.mem_singleton.mp hd]
      exact isHexDigit_showHexDigit h
  · rw [List.mem_cons, List.mem_singleton] at hd
    cases hd with
    | inl h => exact h ▸ isHexDigit_showHexDigit (by omega)
    | inr h => exact h ▸ isHexDigit_showHexDigit (by omega)

theorem length_flatMap_showHex_le (vs : List Nat) :
    (vs.flatMap showHex).length ≤ 2 * vs.length := by
  induction vs with
  | nil => exact Nat.le_refl 0
  | cons v vs ih =>
      have hv : (showHex v).length ≤ 2 := by
        rw [showHex]
        split <;> simp
      rw [List.flatMap_cons, List.length_append, List.length_cons]
      omega

/-- The digits of a number below 256 are read back. -/
theorem hexByte_showHex {n : Nat} (hle : 16 ≤ n) (hlt : n < 256) :
    hexByte (showHex n) = n.toUInt8 := by
  have hhigh : n / 16 < 16 := by omega
  have hlow : n % 16 < 16 := Nat.mod_lt n (by decide)
  rw [showHex_of_le hle, hexByte_digits (isHexDigit_showHexDigit hhigh)
    (isHexDigit_showHexDigit hlow), hexDigit?_showHexDigit _ hhigh, hexDigit?_showHexDigit _ hlow]
  simp only [Option.getD_some]
  rw [Nat.div_add_mod]

/-- A number with two digits does not shift the pairs behind it. -/
theorem hexBytes_showHex_append {n : Nat} (hle : 16 ≤ n) (hlt : n < 256) (s : Bytes) :
    hexBytes (showHex n ++ s) = n.toUInt8 :: hexBytes s := by
  rw [← hexByte_showHex hle hlt, showHex_of_le hle]
  rfl

/-- By induction on the numbers.  A number with one digit in front of others either takes
the first digit of the next one into its pair, or leaves too few digits. -/
theorem hexBytes_flatMap_showHex {vs : List Nat} (hlt : ∀ v ∈ vs, v < 256) :
    hexBytes (vs.flatMap showHex) = vs.map Nat.toUInt8 ↔ ∀ v ∈ vs.dropLast, 16 ≤ v := by
  induction vs with
  | nil => exact ⟨fun _ => nofun, fun _ => rfl⟩
  | cons v vs ih =>
      obtain ⟨hv, hvs⟩ := List.forall_mem_cons.mp hlt
      by_cases hle : 16 ≤ v
      · rw [List.flatMap_cons, hexBytes_showHex_append hle hv, List.map_cons,
          List.cons.injEq, and_iff_right rfl, ih hvs]
        cases vs with
        | nil => exact Iff.rfl
        | cons w ws =>
            rw [List.dropLast_cons_cons, List.forall_mem_cons, and_iff_right hle]
      · have hone : showHex v = [showHexDigit v] := if_pos (by omega)
        cases vs with
        | nil =>
            refine ⟨fun _ => nofun, fun _ => ?_⟩
            rw [List.flatMap_cons, hone]
            have hall : ∀ n < 16, hexBytes [showHexDigit n] = [n.toUInt8] := by decide
            exact hall v (by omega)
        | cons w ws =>
            rw [List.dropLast_cons_cons, List.forall_mem_cons]
            refine ⟨fun heq => absurd heq ?_, fun h => absurd h.1 hle⟩
            obtain ⟨hw, hws⟩ := List.forall_mem_cons.mp hvs
            by_cases hsmall : w < 16
            · -- Two digits for two numbers: the bytes are too few.
              intro heq
              have hlen := congrArg List.length heq
              have hrest := length_flatMap_showHex_le ws
              rw [length_hexBytes, List.flatMap_cons, List.flatMap_cons, hone,
                showHex, if_pos hsmall, List.length_append, List.length_append,
                List.length_singleton, List.length_singleton, List.length_map, List.length_cons,
                List.length_cons] at hlen
              omega
            · -- The first digit of the next number is not zero.
              intro heq
              have hhigh : w / 16 < 16 := by omega
              have hlow : v < 16 := by omega
              have hhead := congrArg List.head? heq
              rw [List.flatMap_cons, List.flatMap_cons, hone, showHex_of_le (by omega)] at hhead
              have hbyte : hexByte [showHexDigit v, showHexDigit (w / 16)] = v.toUInt8 :=
                Option.some.inj hhead
              rw [hexByte_digits (isHexDigit_showHexDigit hlow) (isHexDigit_showHexDigit hhigh),
                hexDigit?_showHexDigit _ hlow, hexDigit?_showHexDigit _ hhigh] at hbyte
              have hnat := congrArg UInt8.toNat hbyte
              change (16 * v + w / 16) % 256 = v % 256 at hnat
              rw [Nat.mod_eq_of_lt (by omega), Nat.mod_eq_of_lt (by omega)] at hnat
              omega

/-! ## Evaluation -/

section

variable {P : Platform} {sel : Nat → Nat} {e : Env}

/-- The nodes of a shape are evaluated without effects, to states that send `b`. -/
def Yields (P : Platform) (sel : Nat → Nat) (e : Env) (t : Tree) (b : Bytes) : Prop :=
  ∀ c : Composite, c.shape = t → ∃ s, eval P sel c e = .ok (s, e) ∧ Sends b s

theorem yields_leaf {kind : LeafKind} {name b : Bytes}
    (h : ∀ id, (leafState kind id name).getStringToSend = b) :
    Yields P sel e (.leaf kind name) b := by
  intro c hc
  cases c with
  | leaf kind' id name' =>
      rw [Composite.shape] at hc
      cases hc
      obtain ⟨hok, hunbound⟩ := leafState_quiet kind id name
      refine ⟨leafState kind id name, ?_, h id, hok, hunbound⟩
      rw [eval]
      rfl
  | node => cases hc

/-- A quoted text is read back. -/
theorem yields_stringNode {text : Bytes} (h : 34 ∉ text) :
    Yields P sel e (stringNode text) text := by
  refine yields_leaf fun id => ?_
  rw [State.getStringToSend_eq]
  exact setAbnfString_quoted h _

/-- A run of digits is read in pairs. -/
theorem yields_hexNode {digits : Bytes} (h : ∀ d ∈ digits, isHexDigit d = true) :
    Yields P sel e (hexNode (ascii "%x" ++ digits)) (hexBytes digits) := by
  refine yields_leaf fun id => ?_
  rw [State.getStringToSend_eq]
  exact setAbnfHex_raw h _

theorem forall₂_yields {ts : List Tree} {bs : List Bytes}
    (h : List.Forall₂ (Yields P sel e) ts bs) {cs : List Composite}
    (hcs : cs.map Composite.shape = ts) : List.Forall₂ (EvaluatesTo P sel e) cs bs := by
  rw [← hcs, List.forall₂_map_left_iff] at h
  exact h.imp fun c b hc => hc c rfl

/-- An anomaly has no command, so its strategy is `ReturnAction`. -/
theorem yields_anomaly {sons : List Tree} {bs : List Bytes}
    (h : List.Forall₂ (Yields P sel e) sons bs) (hne : sons ≠ [])
    (hcommand : ∀ name, .leaf .commandComposite name ∉ sons) (anomalyCounter : Nat) :
    Yields P sel e (anomaly anomalyCounter sons) bs.flatten := by
  intro c hc
  cases c with
  | leaf => cases hc
  | node kind id name cs =>
      rw [Composite.shape, Composite.shapes_eq] at hc
      cases hc
      have hfactory : strategyOf .composite cs = .returnAction := by
        unfold strategyOf factoryAction
        simp only
        split
        · next cid cname rest =>
            refine absurd ?_ (hcommand cname)
            rw [List.map_cons, Composite.shape]
            exact List.mem_cons_self
        · rfl
      obtain ⟨s, hs, hsends⟩ := returnAction_sends (forall₂_yields h rfl)
        (fun hcs => hne (List.map_eq_nil_iff.mpr hcs)) id _
      refine ⟨s, ?_, hsends⟩
      rw [eval, hfactory]
      exact hs

end

/-! ## Repetitions -/

/-- The text some number of times. -/
def copies (m : Nat) (origName : Bytes) : Bytes := (List.replicate m origName).flatten

theorem length_copies (m : Nat) (origName : Bytes) :
    (copies m origName).length = m * origName.length := by
  rw [copies, List.length_flatten, List.map_replicate, List.sum_replicate_nat]

theorem copies_succ (m : Nat) (origName : Bytes) :
    copies (m + 1) origName = copies m origName ++ origName := by
  rw [copies, List.replicate_succ', List.flatten_append, List.flatten_singleton]
  rfl

theorem mem_copies {m : Nat} {origName : Bytes} {c : UInt8} (h : c ∈ copies m origName) :
    c ∈ origName := by
  obtain ⟨s, hs, hc⟩ := List.mem_flatten.mp h
  exact List.eq_of_mem_replicate hs ▸ hc

/-- The loop stops at the first length that is enough.  By induction on the rounds left. -/
theorem fill_copies {origName : Bytes} (hne : origName ≠ []) {lenght fuel j : Nat}
    (hfuel : lenght ≤ fuel + j * origName.length) :
    ∃ m, IsLeast {m | j ≤ m ∧ lenght ≤ m * origName.length} m ∧
      fill origName lenght fuel (copies j origName) = copies m origName := by
  have hpos : 0 < origName.length := List.length_pos_of_ne_nil hne
  induction fuel generalizing j with
  | zero =>
      refine ⟨j, ⟨⟨Nat.le_refl j, ?_⟩, fun m hm => hm.1⟩, rfl⟩
      omega
  | succ fuel ih =>
      rw [fill, length_copies]
      split
      · next hlt =>
          rw [← copies_succ]
          obtain ⟨m, hleast, heq⟩ := ih (j := j + 1) (by rw [Nat.succ_mul]; omega)
          refine ⟨m, ⟨⟨Nat.le_of_succ_le hleast.1.1, hleast.1.2⟩, ?_⟩, heq⟩
          rintro m' ⟨hj, hm'⟩
          refine hleast.2 ⟨?_, hm'⟩
          rcases Nat.lt_or_eq_of_le hj with hlt' | rfl
          · exact hlt'
          · omega
      · next hge => exact ⟨j, ⟨⟨Nat.le_refl j, by omega⟩, fun m hm => hm.1⟩, rfl⟩

/-! ## The seven faults -/

/-- A place behind the first character and in front of the last one, or behind the only
one. -/
def IsInsertPoint (s : Bytes) (p : Nat) : Prop := 1 ≤ p ∧ p ≤ max 1 (s.length - 1)

def insertAt (s : Bytes) (p : Nat) (t : UInt8) : Bytes := s.take p ++ [t] ++ s.drop p

/-- One number for each character of a text, as bytes. -/
def drawn (s : Bytes) (value : Nat → Nat) : Bytes :=
  (List.range s.length).map fun i => (value i).toUInt8

theorem toNat_of_mem_drawn {s : Bytes} {value : Nat → Nat} (hlt : ∀ i, value i < 256) {c : UInt8}
    (h : c ∈ drawn s value) : ∃ i, c.toNat = value i := by
  obtain ⟨i, _, rfl⟩ := List.mem_map.mp h
  exact ⟨i, Nat.mod_eq_of_lt (hlt i)⟩

/-- What the faults of a text are generated to send. -/
def AsGenerated (rand : Nat → Nat → Nat) (s : Bytes) (sent : List Bytes) : Prop :=
  ∃ p q r m, IsInsertPoint s p ∧ IsInsertPoint s q ∧ IsInsertPoint s r ∧
    IsLeast {m | 1 ≤ m ∧ 512 ≤ m * s.length} m ∧
    (∀ c ∈ drawn s fun i => 128 + rand 4 i % 128, 128 ≤ c) ∧
    (∀ c ∈ drawn s fun i => rand 5 i % 128, c < 128) ∧
    sent = [insertAt s p 0, insertAt s q 10, insertAt s r 13, copies m s,
      drawn s fun i => 128 + rand 4 i % 128, drawn s fun i => rand 5 i % 128, []]

section

variable (P : Platform) (sel : Nat → Nat) (e : Env)

/-- The terminator stands inside of the text. -/
theorem yields_MIDDLETERM {s : Bytes} (hne : s ≠ []) (hs : 34 ∉ s) (k : Nat) (rand : Nat → Nat)
    {digits : Bytes} (hdigits : ∀ d ∈ digits, isHexDigit d = true) (t : UInt8)
    (ht : hexBytes digits = [t]) :
    ∃ p, IsInsertPoint s p ∧ Yields P sel e
      (stringInjectionMIDDLETERM k rand s (ascii "%x" ++ digits)) (insertAt s p t) := by
  have hpos : 0 < s.length := List.length_pos_of_ne_nil hne
  obtain ⟨p, hp⟩ : ∃ p, p = if 1 < s.length then 1 + rand 0 % (s.length - 1) else 1 := ⟨_, rfl⟩
  refine ⟨p, ?_, ?_⟩
  · rw [IsInsertPoint, hp]
    split
    · next hlt =>
        have hmod := Nat.mod_lt (rand 0) (Nat.sub_pos_of_lt hlt)
        omega
    · omega
  · rw [stringInjectionMIDDLETERM, if_neg (by omega)]
    simp only [← hp]
    have hsons : List.Forall₂ (Yields P sel e)
        [stringNode (s.take p), hexNode (ascii "%x" ++ digits), stringNode (s.drop p)]
        [s.take p, hexBytes digits, s.drop p] :=
      .cons (yields_stringNode fun h => hs (List.mem_of_mem_take h)) <|
        .cons (yields_hexNode hdigits) <|
          .cons (yields_stringNode fun h => hs (List.mem_of_mem_drop h)) .nil
    have hanomaly := yields_anomaly hsons nofun (by simp [stringNode, hexNode]) k
    have hflat : [s.take p, hexBytes digits, s.drop p].flatten = insertAt s p t := by
      simp [ht, insertAt]
    rwa [hflat] at hanomaly

/-- The text is repeated until it is long enough. -/
theorem yields_VERYLONG {s : Bytes} (hne : s ≠ []) (hs : 34 ∉ s) (k : Nat) :
    ∃ m, IsLeast {m | 1 ≤ m ∧ 512 ≤ m * s.length} m ∧
      Yields P sel e (stringInjectionVERYLONG k s 512) (copies m s) := by
  have hfuel : 512 ≤ 512 + 1 * s.length := by omega
  obtain ⟨m, hleast, hfill⟩ := fill_copies hne hfuel
  refine ⟨m, hleast, ?_⟩
  have hone : copies 1 s = s := List.flatten_singleton
  rw [hone] at hfill
  rw [stringInjectionVERYLONG, hfill, ← List.flatten_singleton (l := copies m s)]
  refine yields_anomaly (.cons ?_ .nil) nofun (by simp [stringNode]) k
  rw [List.flatten_singleton]
  exact yields_stringNode fun h => hs (mem_copies h)

/-- The digits of the numbers drawn for a text. -/
def digitsOf (s : Bytes) (value : Nat → Nat) : Bytes :=
  (List.range s.length).flatMap fun i => showHex (value i)

/-- A run of numbers below 256 is sent as it is read in pairs. -/
theorem yields_numbers (s : Bytes) {value : Nat → Nat} (hlt : ∀ i, value i < 256) (k : Nat) :
    Yields P sel e (anomaly k [hexNode (ascii "%x" ++ digitsOf s value)])
      (hexBytes (digitsOf s value)) := by
  rw [← List.flatten_singleton (l := hexBytes (digitsOf s value))]
  refine yields_anomaly (.cons ?_ .nil) nofun (by simp [hexNode]) k
  refine yields_hexNode fun d hd => ?_
  obtain ⟨i, _, hd⟩ := List.mem_flatMap.mp hd
  exact isHexDigit_of_mem_showHex (hlt i) d hd

theorem hexBytes_digitsOf {s : Bytes} {value : Nat → Nat} (hlt : ∀ i, value i < 256) :
    hexBytes (digitsOf s value) = drawn s value ↔ ∀ i, i + 1 < s.length → 16 ≤ value i := by
  have hdigits : digitsOf s value = ((List.range s.length).map value).flatMap showHex := by
    rw [digitsOf, List.flatMap_map]
  have hdrawn : drawn s value = ((List.range s.length).map value).map Nat.toUInt8 := by
    rw [drawn, List.map_map]
    rfl
  rw [hdigits, hdrawn, hexBytes_flatMap_showHex (List.forall_mem_map.mpr fun i _ => hlt i),
    List.dropLast_eq_take, List.length_map, List.length_range, ← List.map_take,
    List.take_range, List.forall_mem_map]
  simp only [List.mem_range]
  have hlast : ∀ i, i < min (s.length - 1) s.length ↔ i + 1 < s.length := by omega
  simp only [hlast]

theorem yields_NULLSTRING (k : Nat) : Yields P sel e (stringInjectionNULLSTRING k) [] := by
  have hsons : List.Forall₂ (Yields P sel e) [stringNode []] [[]] :=
    .cons (yields_stringNode nofun) .nil
  exact yields_anomaly hsons nofun (by simp [stringNode]) k

/-- What the seven faults send. -/
theorem evalSons_addFaults (anomalyCounter : Nat) (rand : Nat → Nat → Nat) {s : Bytes}
    (hne : s ≠ []) (hs : 34 ∉ s) {cs : List Composite}
    (hcs : cs.map Composite.shape = addFaults anomalyCounter s rand) :
    ∃ p q r m ss, IsInsertPoint s p ∧ IsInsertPoint s q ∧ IsInsertPoint s r ∧
      IsLeast {m | 1 ≤ m ∧ 512 ≤ m * s.length} m ∧ evalSons P sel cs e = .ok (ss, e) ∧
      ss.map State.getStringToSend = [insertAt s p 0, insertAt s q 10, insertAt s r 13,
        copies m s, hexBytes (digitsOf s fun i => 128 + rand 4 i % 128),
        hexBytes (digitsOf s fun i => rand 5 i % 128), []] := by
  have hzero : ∀ d ∈ ascii "00", isHexDigit d = true := List.all_eq_true.mp rfl
  have hline : ∀ d ∈ ascii "0a", isHexDigit d = true := List.all_eq_true.mp rfl
  have hreturn : ∀ d ∈ ascii "0d", isHexDigit d = true := List.all_eq_true.mp rfl
  obtain ⟨p, hp, h₀⟩ := yields_MIDDLETERM P sel e hne hs anomalyCounter (rand 0) hzero 0 rfl
  obtain ⟨q, hq, h₁⟩ := yields_MIDDLETERM P sel e hne hs (anomalyCounter + 1) (rand 1) hline 10 rfl
  obtain ⟨r, hr, h₂⟩ :=
    yields_MIDDLETERM P sel e hne hs (anomalyCounter + 2) (rand 2) hreturn 13 rfl
  obtain ⟨m, hm, h₃⟩ := yields_VERYLONG P sel e hne hs (anomalyCounter + 3)
  have hhigh : ∀ i, 128 + rand 4 i % 128 < 256 := by omega
  have hlow : ∀ i, rand 5 i % 128 < 256 := by omega
  have hall : List.Forall₂ (Yields P sel e) (addFaults anomalyCounter s rand) _ :=
    .cons h₀ <| .cons h₁ <| .cons h₂ <| .cons h₃ <|
      .cons (yields_numbers P sel e s hhigh (anomalyCounter + 4)) <|
        .cons (yields_numbers P sel e s hlow (anomalyCounter + 5)) <|
          .cons (yields_NULLSTRING P sel e (anomalyCounter + 6)) .nil
  obtain ⟨ss, hss, hsends⟩ := evalSons_sends (forall₂_yields hall hcs)
  refine ⟨p, q, r, m, ss, hp, hq, hr, hm, hss, ?_⟩
  rw [← List.forall₂_eq_eq_eq, List.forall₂_map_left_iff]
  exact hsends.flip.imp fun _ _ h => h.wire

/-- The seven faults send what they were generated to send if and only if no number of
`RANDOMFUZZ` but the last one has a single digit. -/
theorem faults_sent_iff (anomalyCounter : Nat) (rand : Nat → Nat → Nat) {s : Bytes}
    (hne : s ≠ []) (htext : ∀ c ∈ s, isText c = true) {cs : List Composite}
    (hcs : cs.map Composite.shape = addFaults anomalyCounter s rand) :
    (∃ ss, evalSons P sel cs e = .ok (ss, e) ∧
        AsGenerated rand s (ss.map State.getStringToSend)) ↔
      ∀ i, i + 1 < s.length → 16 ≤ rand 5 i % 128 := by
  have hquote : 34 ∉ s := fun h => absurd (htext 34 h) (by decide)
  have hhigh : ∀ i, 128 + rand 4 i % 128 < 256 := by omega
  have hlow : ∀ i, rand 5 i % 128 < 256 := by omega
  obtain ⟨p, q, r, m, ss, hp, hq, hr, hm, hss, hsent⟩ :=
    evalSons_addFaults P sel e anomalyCounter rand hne hquote hcs
  rw [← hexBytes_digitsOf hlow]
  constructor
  · rintro ⟨ss', hss', p', q', r', m', _, _, _, _, _, _, hsent'⟩
    rw [hss] at hss'
    cases hss'
    rw [hsent] at hsent'
    simp only [List.cons.injEq] at hsent'
    exact hsent'.2.2.2.2.2.1
  · intro hfuzz
    have hnonascii : hexBytes (digitsOf s fun i => 128 + rand 4 i % 128) =
        drawn s fun i => 128 + rand 4 i % 128 :=
      (hexBytes_digitsOf hhigh).mpr fun i _ => by omega
    refine ⟨ss, hss, p, q, r, m, hp, hq, hr, hm, ?_, ?_, ?_⟩
    · intro c hc
      obtain ⟨i, hi⟩ := toNat_of_mem_drawn hhigh hc
      rw [UInt8.le_iff_toNat_le, hi]
      exact Nat.le_add_right 128 _
    · intro c hc
      obtain ⟨i, hi⟩ := toNat_of_mem_drawn hlow hc
      rw [UInt8.lt_iff_toNat_lt, hi]
      exact Nat.mod_lt _ (by decide)
    · rw [hsent, hnonascii, hfuzz]

end

/-! ## Two characters -/

mutual

/-- A node for a tree, with one id for all. -/
def nodeOf : Tree → Composite
  | .leaf kind name => .leaf kind 0 name
  | .node kind name sons => .node kind 0 name (nodesFor sons)

def nodesFor : List Tree → List Composite
  | [] => []
  | t :: ts => nodeOf t :: nodesFor ts

end

theorem faults_sent_iff_twoCharacters :
    ∃ ss, evalSons ⟨fun b => b, 0⟩ (fun _ => 0)
        (nodesFor (addFaults 0 (ascii "ab") fun _ _ => 16)) {} = .ok (ss, {}) ∧
      AsGenerated (fun _ _ => 16) (ascii "ab") (ss.map State.getStringToSend) :=
  (faults_sent_iff ⟨fun b => b, 0⟩ (fun _ => 0) {} 0 (fun _ _ => 16) (s := ascii "ab") nofun
    (List.all_eq_true.mp rfl) rfl).mpr fun _ _ => by decide

/-- Two numbers below 16 are sent as one byte. -/
theorem fuzz_loses_a_byte : ¬ ∀ (P : Platform) (sel : Nat → Nat) (e : Env) (anomalyCounter : Nat)
    (rand : Nat → Nat → Nat) (s : Bytes) (cs : List Composite), s ≠ [] →
    (∀ c ∈ s, isText c = true) → cs.map Composite.shape = addFaults anomalyCounter s rand →
    ∃ ss, evalSons P sel cs e = .ok (ss, e) ∧
      AsGenerated rand s (ss.map State.getStringToSend) := by
  intro hall
  have htext : ∀ c ∈ ascii "ab", isText c = true := List.all_eq_true.mp rfl
  obtain ⟨cs, hcs⟩ : ∃ cs, cs.map Composite.shape = addFaults 0 (ascii "ab") fun _ _ => 1 :=
    ⟨nodesFor (addFaults 0 (ascii "ab") fun _ _ => 1), rfl⟩
  obtain ⟨ss, hss, _, _, _, _, _, _, _, _, _, _, hsent⟩ := hall ⟨fun b => b, 0⟩ (fun _ => 0) {} 0
    (fun _ _ => 1) (ascii "ab") cs nofun htext hcs
  obtain ⟨_, _, _, _, ss', _, _, _, _, hss', hsent'⟩ := evalSons_addFaults ⟨fun b => b, 0⟩
    (fun _ => 0) {} 0 (fun _ _ => 1) (s := ascii "ab") nofun (by decide) hcs
  rw [hss] at hss'
  cases hss'
  rw [hsent'] at hsent
  simp only [List.cons.injEq] at hsent
  exact absurd hsent.2.2.2.2.2.1 (by decide)

end InjectorPerformer

end Stress

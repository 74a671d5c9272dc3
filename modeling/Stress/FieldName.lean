import Stress.Scanner
import Mathlib.Data.List.Perm.Subperm
import Mathlib.Data.Set.Basic

/-!
# The names of dissected nodes

`Packet::createNode` (`src/tools/dissector/src/model.cpp`) names a node that is no leaf
after its protocol field.  `createName` takes the first text that no node has yet: the
field name, the field name behind the names of one ancestor, of two, and so on, and last
behind all of them and in front of a number.  `Util::trimPlus` then deletes seven
characters and capitalises what follows them.

So the texts differ, but what `trimPlus` makes of them need not.  `dissected_names_iff`
says for which field names it does in every run: different candidates must stay different,
and no other character may occur in a name than letters, digits and the seven.
-/

namespace Stress.Dissector

/-! ## `trimPlus` -/

/-- `toupper` of a byte. -/
def toUpper (c : UInt8) : UInt8 := if 97 ≤ c && c ≤ 122 then c - 32 else c

/-- The first character made upper case. -/
def capital : Bytes → Bytes
  | [] => []
  | c :: s => toUpper c :: s

theorem dropWhile_ne_nil {c : UInt8} {p : Bytes} (h : c ∈ p) : p.dropWhile (· != c) ≠ [] := by
  rw [Ne, List.dropWhile_eq_nil_iff]
  intro hall
  have hc := hall c h
  rw [bne_self_eq_false] at hc
  cases hc

theorem length_erased {c : UInt8} {p : Bytes} (h : c ∈ p) :
    (p.takeWhile (· != c) ++ capital (p.dropWhile (· != c)).tail).length < p.length := by
  have hsplit := congrArg List.length (@List.takeWhile_append_dropWhile _ (· != c) p)
  have hcapital : ∀ s, (capital s).length = s.length := by
    intro s
    cases s <;> rfl
  have hpos := List.length_pos_iff.mpr (dropWhile_ne_nil h)
  rw [List.length_append] at hsplit
  rw [List.length_append, hcapital, List.length_tail]
  omega

/-- The loop over `find` for one character: what follows it is made upper case, and it is
erased. -/
def trimChar (c : UInt8) (p : Bytes) : Bytes :=
  if _h : c ∈ p then
    trimChar c (p.takeWhile (· != c) ++ capital (p.dropWhile (· != c)).tail)
  else
    p
termination_by p.length
decreasing_by exact length_erased _h

/-- The characters that are not allowed, in the order in which they are looked for. -/
def illegalChars : List UInt8 := [32, 45, 40, 41, 39, 34, 46]

/-- `Util::trimPlus`. -/
def trimPlus (p : Bytes) : Bytes := illegalChars.foldl (fun p c => trimChar c p) p

/-! ## `createName` -/

/-- The name of a field with those of the nodes above it, the parent first. -/
structure Field where
  name : Bytes
  ancestors : List Bytes
deriving DecidableEq, Repr

/-- The last loop of `createName`, from a number.  The counter goes up at most as often as
there are names. -/
def countUp (names : List Bytes) (text : Bytes) : Nat → Nat → Bytes
  | 0, c => text ++ showNat c
  | fuel + 1, c =>
      if !names.contains (text ++ showNat c) then text ++ showNat c
      else countUp names text fuel (c + 1)

/-- The loop over the ancestors, with the text in front of the field name. -/
def climb (names : List Bytes) (n : Bytes) : Bytes → List Bytes → Bytes
  | name, [] => countUp names (name ++ n) names.length 1
  | name, a :: as =>
      if !names.contains (name ++ a ++ n) then name ++ a ++ n else climb names n (name ++ a) as

/-- `Packet::createName`. -/
def createName (names : List Bytes) (f : Field) : Bytes :=
  if !names.contains f.name then f.name else climb names f.name [] f.ancestors

/-- The texts that a sequence of calls puts into the set of names. -/
def createNames : List Bytes → List Field → List Bytes
  | _, [] => []
  | names, f :: fs => createName names f :: createNames (createName names f :: names) fs

/-- The names of the nodes that `createNode` makes of the fields of a packet. -/
def ruleNames (fields : List Field) : List Bytes := (createNames [] fields).map trimPlus

/-- A text that begins with a letter. -/
def StartsWithLetter (s : Bytes) : Prop := ∃ c ∈ s.head?, isLetter c = true

/-- The names differ, and those of fields that begin with a letter are rule names of the
scanner. -/
def WellNamed (fields : List Field) : Prop :=
  (ruleNames fields).Nodup ∧ ∀ p ∈ fields.zip (ruleNames fields), StartsWithLetter p.1.name →
    p.2 ∈ rulename.matches'

/-! ## The condition -/

/-- The texts that fields may be given: a field name behind names of ancestors, and in front
of a number. -/
def Candidates (names : Set Bytes) : Set Bytes :=
  { r | ∃ n ∈ names, ∃ as : List Bytes, (∀ a ∈ as, a ∈ names) ∧
    (r = as.flatten ++ n ∨ ∃ c, 1 ≤ c ∧ r = as.flatten ++ n ++ showNat c) }

def isIllegal (c : UInt8) : Bool := illegalChars.contains c

/-- The characters of a text without some, capitalised behind one that is left out. -/
def trimmed (p : UInt8 → Bool) : Bool → Bytes → Bytes
  | _, [] => []
  | up, c :: s =>
      if p c then trimmed p true s else (if up then toUpper c else c) :: trimmed p false s

/-- Different candidates differ in more than deleted characters and the case of what stands
behind them. -/
def Unambiguous (names : Set Bytes) : Prop :=
  ∀ r ∈ Candidates names, ∀ s ∈ Candidates names,
    trimmed isIllegal false r = trimmed isIllegal false s → r = s

/-- Letters, digits and characters that are deleted, with a letter before any digit. -/
def Spelled (a : Bytes) : Prop :=
  (∀ c ∈ a, isLetter c = true ∨ isDigit c = true ∨ isIllegal c = true) ∧
    ∀ c ∈ (a.filter fun c => !isIllegal c).head?, isLetter c = true

/-- If any name begins with a letter, they are all spelled so. -/
def Spellable (names : Set Bytes) : Prop :=
  (∃ n ∈ names, StartsWithLetter n) → ∀ a ∈ names, Spelled a

/-- The fields of a packet with names from a set. -/
def Over (names : Set Bytes) (fields : List Field) : Prop :=
  ∀ f ∈ fields, f.name ∈ names ∧ ∀ a ∈ f.ancestors, a ∈ names

/-! ## What `trimPlus` comes to -/

theorem toNat_toUpper (c : UInt8) : (toUpper c).toNat =
    if 97 ≤ c.toNat ∧ c.toNat ≤ 122 then c.toNat - 32 else c.toNat := by
  rw [toUpper]
  simp only [Bool.and_eq_true, decide_eq_true_eq, UInt8.le_iff_toNat_le, UInt8.reduceToNat]
  split
  · next h =>
      have hle : 32 ≤ c := UInt8.le_iff_toNat_le.mpr (Nat.le_trans (by decide) h.1)
      exact UInt8.toNat_sub_of_le c 32 hle
  · rfl

theorem toUpper_toUpper (c : UInt8) : toUpper (toUpper c) = toUpper c := by
  refine UInt8.toNat_inj.mp ?_
  rw [toNat_toUpper, toNat_toUpper]
  by_cases h : 97 ≤ c.toNat ∧ c.toNat ≤ 122
  · rw [if_pos h, if_neg (by omega)]
  · rw [if_neg h, if_neg h]

/-- No letter becomes a character that is deleted, or comes from one. -/
theorem toUpper_eq_iff {c d : UInt8} (hd : d.toNat < 65) : toUpper c = d ↔ c = d := by
  rw [← UInt8.toNat_inj, ← UInt8.toNat_inj, toNat_toUpper]
  split <;> omega

theorem trimmed_capital {p : UInt8 → Bool} (hp : ∀ c, p (toUpper c) = p c) (s : Bytes) :
    trimmed p false (capital s) = trimmed p true s := by
  cases s with
  | nil => rfl
  | cons c s => rw [capital, trimmed, trimmed, hp]; rfl

theorem trimmed_append {p : UInt8 → Bool} {s : Bytes} (hs : ∀ c ∈ s, p c = false) (t : Bytes) :
    trimmed p false (s ++ t) = s ++ trimmed p false t := by
  induction s with
  | nil => rfl
  | cons c s ih =>
      obtain ⟨hc, hrest⟩ := List.forall_mem_cons.mp hs
      rw [List.cons_append, trimmed, hc, if_neg Bool.false_ne_true, if_neg Bool.false_ne_true,
        ih hrest]
      rfl

theorem trimmed_self {p : UInt8 → Bool} {s : Bytes} (hs : ∀ c ∈ s, p c = false) :
    trimmed p false s = s := by
  have happend := trimmed_append hs []
  rw [List.append_nil] at happend
  rw [happend]
  exact List.append_nil s

theorem trimmed_trimmed {p q : UInt8 → Bool} (hq : ∀ c, q (toUpper c) = q c) (s : Bytes)
    (u v : Bool) : trimmed q u (trimmed p v s) = trimmed (fun c => p c || q c) (u || v) s := by
  induction s generalizing u v with
  | nil => rfl
  | cons c s ih =>
      rw [trimmed, trimmed]
      cases hp : p c with
      | true =>
          rw [if_pos rfl, Bool.true_or, if_pos rfl, ih, Bool.or_true]
      | false =>
          have hchar : q (if v then toUpper c else c) = q c := by
            cases v
            · rfl
            · exact hq c
          rw [if_neg Bool.false_ne_true, Bool.false_or, trimmed, hchar, ih, ih]
          cases hc : q c with
          | true =>
              rw [if_pos rfl, if_pos rfl]
              rfl
          | false =>
              rw [if_neg Bool.false_ne_true, if_neg Bool.false_ne_true, Bool.or_self]
              cases u <;> cases v <;>
                first | rfl | rw [if_pos rfl, if_pos rfl, toUpper_toUpper]; rfl

/-- The loop for one character leaves it out and capitalises what follows it. -/
theorem trimChar_eq {c : UInt8} (hc : c.toNat < 65) (p : Bytes) :
    trimChar c p = trimmed (· == c) false p := by
  have hupper : ∀ d, (toUpper d == c) = (d == c) := by
    intro d
    rw [Bool.eq_iff_iff, beq_iff_eq, beq_iff_eq, toUpper_eq_iff hc]
  induction hn : p.length using Nat.strong_induction_on generalizing p with
  | _ n ih =>
      subst hn
      rw [trimChar]
      have hbefore : ∀ d ∈ p.takeWhile (· != c), (d == c) = false := by
        intro d hd
        have hne := List.mem_takeWhile_imp hd
        rwa [bne, Bool.not_eq_true'] at hne
      split
      · next h =>
          have hne : p.dropWhile (· != c) ≠ [] := dropWhile_ne_nil h
          obtain ⟨d, s, hs⟩ := List.exists_cons_of_ne_nil hne
          have hd : (d == c) = true := by
            have hhead := List.head?_dropWhile_not (· != c) p
            rw [hs, List.head?_cons] at hhead
            simpa using hhead
          have hp : p = p.takeWhile (· != c) ++ d :: s := by
            rw [← hs, List.takeWhile_append_dropWhile]
          rw [ih _ (length_erased h) _ rfl, trimmed_append hbefore, trimmed_capital hupper, hs,
            List.tail_cons]
          conv_rhs => rw [hp, trimmed_append hbefore, trimmed, hd, if_pos rfl]
      · next h =>
          have hall : ∀ d ∈ p, (d == c) = false := by
            intro d hd
            rw [beq_eq_false_iff_ne]
            rintro rfl
            exact h hd
          exact (trimmed_self hall).symm

/-- The clean-up in one pass over the text. -/
theorem trimPlus_eq (p : Bytes) : trimPlus p = trimmed isIllegal false p := by
  have hall : illegalChars.all (fun c => decide (c.toNat < 65)) = true := by decide
  have hsmall : ∀ c ∈ illegalChars, c.toNat < 65 := by
    intro c hc
    exact of_decide_eq_true (List.all_eq_true.mp hall c hc)
  have hfold : ∀ (cs : List UInt8) (q : UInt8 → Bool) (p : Bytes), (∀ c ∈ cs, c.toNat < 65) →
      cs.foldl (fun p c => trimChar c p) (trimmed q false p) =
        trimmed (fun d => q d || cs.contains d) false p := by
    intro cs
    induction cs with
    | nil => intro q p _; simp
    | cons c cs ih =>
        intro q p hcs
        obtain ⟨hc, hrest⟩ := List.forall_mem_cons.mp hcs
        have hupper : ∀ d, (toUpper d == c) = (d == c) := by
          intro d
          rw [Bool.eq_iff_iff, beq_iff_eq, beq_iff_eq, toUpper_eq_iff hc]
        rw [List.foldl_cons, trimChar_eq hc, trimmed_trimmed hupper, Bool.or_self, ih _ _ hrest]
        congr 1
        funext d
        rw [List.contains_cons, Bool.or_assoc]
  have hnone : trimmed (fun _ => false) false p = p := trimmed_self fun c _ => rfl
  have hfolded := hfold illegalChars (fun _ => false) p hsmall
  rw [hnone] at hfolded
  exact hfolded

/-! ## What `createName` gives -/

/-- The texts that are tried one after the other. -/
def candidate (name n : Bytes) (as : List Bytes) (j : Nat) : Bytes :=
  if j ≤ as.length then name ++ (as.take j).flatten ++ n
  else name ++ as.flatten ++ n ++ showNat (j - as.length)

theorem not_contains {names : List Bytes} {r : Bytes} :
    (!names.contains r) = true ↔ r ∉ names := by
  rw [Bool.not_eq_true', ← Bool.not_eq_true, List.contains_iff_mem]

/-- Among more numbers than names there is one that is not taken. -/
theorem exists_not_taken (names : List Bytes) (text : Bytes) (c fuel : Nat)
    (h : names.length ≤ fuel) : ∃ d, c ≤ d ∧ d ≤ c + fuel ∧ text ++ showNat d ∉ names := by
  by_contra hall
  have hmem : ∀ d, c ≤ d → d ≤ c + fuel → text ++ showNat d ∈ names := by
    intro d hc hd
    by_contra hnot
    exact hall ⟨d, hc, hd, hnot⟩
  have hnodup : ((List.range' c (fuel + 1)).map fun d => text ++ showNat d).Nodup :=
    List.Nodup.map (fun i j hij => showNat_injective (List.append_cancel_left hij))
      List.nodup_range'
  have hsubset : ((List.range' c (fuel + 1)).map fun d => text ++ showNat d) ⊆ names := by
    intro r hr
    obtain ⟨d, hd, rfl⟩ := List.mem_map.mp hr
    rw [List.mem_range'_1] at hd
    exact hmem d hd.1 (by omega)
  have hle := (List.subperm_of_subset hnodup hsubset).length_le
  rw [List.length_map, List.length_range'] at hle
  omega

theorem countUp_spec (names : List Bytes) (text : Bytes) (fuel c : Nat)
    (h : ∃ d, c ≤ d ∧ d ≤ c + fuel ∧ text ++ showNat d ∉ names) :
    ∃ d, c ≤ d ∧ countUp names text fuel c = text ++ showNat d ∧
      (∀ i, c ≤ i → i < d → text ++ showNat i ∈ names) ∧ text ++ showNat d ∉ names := by
  induction fuel generalizing c with
  | zero =>
      obtain ⟨d, hc, hd, hnot⟩ := h
      have heq : d = c := by omega
      subst heq
      exact ⟨d, Nat.le_refl d, rfl, by omega, hnot⟩
  | succ fuel ih =>
      rw [countUp]
      split
      · next hnot => exact ⟨c, Nat.le_refl c, rfl, by omega, not_contains.mp hnot⟩
      · next hmem =>
          rw [not_contains, not_not] at hmem
          obtain ⟨d, hc, hd, hnot⟩ := h
          have hne : c ≠ d := by
            rintro rfl
            exact hnot hmem
          obtain ⟨e, hce, heq, hbefore, hfree⟩ := ih (c + 1) ⟨d, by omega, by omega, hnot⟩
          refine ⟨e, by omega, heq, fun i hi hlt => ?_, hfree⟩
          by_cases hic : i = c
          · rw [hic]
            exact hmem
          · exact hbefore i (by omega) hlt

theorem climb_spec (names : List Bytes) (n name : Bytes) (as : List Bytes)
    (h : name ++ n ∈ names) : ∃ j, climb names n name as = candidate name n as j ∧
      (∀ i < j, candidate name n as i ∈ names) ∧ candidate name n as j ∉ names := by
  induction as generalizing name with
  | nil =>
      have hfree := exists_not_taken names (name ++ n) 1 names.length (Nat.le_refl _)
      obtain ⟨d, hd, heq, hbefore, hnot⟩ := countUp_spec names (name ++ n) names.length 1 hfree
      have hnil : ∀ i, 1 ≤ i → candidate name n [] i = name ++ n ++ showNat i := by
        intro i hi
        rw [candidate, if_neg (by simp; omega)]
        simp
      refine ⟨d, by rw [climb, heq, hnil d hd], fun i hi => ?_, by rw [hnil d hd]; exact hnot⟩
      by_cases hzero : i = 0
      · rw [hzero, candidate, if_pos (Nat.zero_le _)]
        simpa using h
      · rw [hnil i (by omega)]
        exact hbefore i (by omega) hi
  | cons a as ih =>
      have hzero : candidate name n (a :: as) 0 = name ++ n := by
        rw [candidate, if_pos (Nat.zero_le _)]
        simp
      have hsucc : ∀ j, candidate name n (a :: as) (j + 1) = candidate (name ++ a) n as j := by
        intro j
        simp [candidate]
      have hone : candidate (name ++ a) n as 0 = name ++ a ++ n := by
        rw [candidate, if_pos (Nat.zero_le _)]
        simp
      rw [climb]
      split
      · next hnot =>
          rw [not_contains] at hnot
          refine ⟨1, by rw [hsucc, hone], fun i hi => ?_, by rw [hsucc, hone]; exact hnot⟩
          have hi0 : i = 0 := by omega
          rw [hi0, hzero]
          exact h
      · next hmem =>
          rw [not_contains, not_not] at hmem
          obtain ⟨j, heq, hbefore, hnot⟩ := ih (name ++ a) hmem
          refine ⟨j + 1, by rw [hsucc, heq], fun i hi => ?_, by rw [hsucc]; exact hnot⟩
          cases i with
          | zero => rw [hzero]; exact h
          | succ i =>
              rw [hsucc]
              exact hbefore i (by omega)

/-- The first candidate that is not taken. -/
theorem createName_spec (names : List Bytes) (f : Field) :
    ∃ j, createName names f = candidate [] f.name f.ancestors j ∧
      (∀ i < j, candidate [] f.name f.ancestors i ∈ names) ∧
      candidate [] f.name f.ancestors j ∉ names := by
  have hzero : candidate [] f.name f.ancestors 0 = f.name := by
    rw [candidate, if_pos (Nat.zero_le _)]
    simp
  rw [createName]
  split
  · next hnot => exact ⟨0, hzero.symm, by omega, by rw [hzero]; exact not_contains.mp hnot⟩
  · next hmem =>
      rw [not_contains, not_not] at hmem
      exact climb_spec names f.name [] f.ancestors hmem

/-! ## The texts of a run -/

theorem candidate_mem {names : Set Bytes} {f : Field} (hname : f.name ∈ names)
    (hancestors : ∀ a ∈ f.ancestors, a ∈ names) (j : Nat) :
    candidate [] f.name f.ancestors j ∈ Candidates names := by
  rw [candidate]
  split
  · refine ⟨f.name, hname, f.ancestors.take j, ?_, .inl rfl⟩
    exact fun a ha => hancestors a ((List.take_sublist j f.ancestors).subset ha)
  · next h =>
      exact ⟨f.name, hname, f.ancestors, hancestors, .inr ⟨_, by omega, rfl⟩⟩

theorem createNames_mem {names : Set Bytes} {fields : List Field} (h : Over names fields)
    (taken : List Bytes) : ∀ r ∈ createNames taken fields, r ∈ Candidates names := by
  induction fields generalizing taken with
  | nil => exact List.forall_mem_nil _
  | cons f fields ih =>
      obtain ⟨⟨hname, hancestors⟩, hrest⟩ := List.forall_mem_cons.mp h
      obtain ⟨j, hj, -, -⟩ := createName_spec taken f
      refine List.forall_mem_cons.mpr ⟨?_, ih hrest _⟩
      rw [hj]
      exact candidate_mem hname hancestors j

/-- Every text is new. -/
theorem createNames_nodup (taken : List Bytes) (fields : List Field) :
    (createNames taken fields).Nodup ∧ ∀ r ∈ createNames taken fields, r ∉ taken := by
  induction fields generalizing taken with
  | nil => exact ⟨.nil, List.forall_mem_nil _⟩
  | cons f fields ih =>
      obtain ⟨j, hj, -, hfree⟩ := createName_spec taken f
      obtain ⟨hnodup, hnew⟩ := ih (createName taken f :: taken)
      rw [createNames]
      refine ⟨List.nodup_cons.mpr ⟨fun hmem => hnew _ hmem (List.mem_cons_self ..), hnodup⟩, ?_⟩
      refine List.forall_mem_cons.mpr ⟨by rw [hj]; exact hfree, fun r hr hmem => ?_⟩
      exact hnew r hr (List.mem_cons_of_mem _ hmem)

theorem createNames_append (taken : List Bytes) (xs ys : List Field) :
    createNames taken (xs ++ ys) =
      createNames taken xs ++ createNames ((createNames taken xs).reverse ++ taken) ys := by
  induction xs generalizing taken with
  | nil => rfl
  | cons x xs ih =>
      rw [List.cons_append, createNames, createNames, ih, List.reverse_cons, List.append_assoc]
      rfl

/-- As many calls for one field as one likes take as many of its candidates. -/
theorem candidate_taken (taken : List Bytes) (f : Field) (m : Nat) :
    ∀ i < m, candidate [] f.name f.ancestors i ∈
      (createNames taken (List.replicate m f)).reverse ++ taken := by
  induction m with
  | zero => omega
  | succ m ih =>
      have hstep : (createNames taken (List.replicate (m + 1) f)).reverse ++ taken =
          createName ((createNames taken (List.replicate m f)).reverse ++ taken) f ::
            ((createNames taken (List.replicate m f)).reverse ++ taken) := by
        rw [List.replicate_succ', createNames_append, List.reverse_append]
        rfl
      intro i hi
      rw [hstep]
      by_cases him : i < m
      · exact List.mem_cons_of_mem _ (ih i him)
      · have him' : i = m := by omega
        subst him'
        obtain ⟨j, hj, hbefore, hfree⟩ :=
          createName_spec ((createNames taken (List.replicate i f)).reverse ++ taken) f
        by_cases hmem : candidate [] f.name f.ancestors i ∈
            (createNames taken (List.replicate i f)).reverse ++ taken
        · exact List.mem_cons_of_mem _ hmem
        · have hij : j = i := by
            obtain h | h | h := Nat.lt_trichotomy j i
            · exact absurd (ih j h) hfree
            · exact h
            · exact absurd (hbefore i h) hmem
          rw [hj, hij]
          exact List.mem_cons_self ..

/-- Every candidate is a candidate of a field. -/
theorem exists_candidate {names : Set Bytes} {r : Bytes} (h : r ∈ Candidates names) :
    ∃ f : Field, ∃ j, f.name ∈ names ∧ (∀ a ∈ f.ancestors, a ∈ names) ∧
      r = candidate [] f.name f.ancestors j := by
  obtain ⟨n, hn, as, has, rfl | ⟨c, hc, rfl⟩⟩ := h
  · refine ⟨⟨n, as⟩, as.length, hn, has, ?_⟩
    rw [candidate, if_pos (Nat.le_refl _), List.take_length]
    rfl
  · refine ⟨⟨n, as⟩, as.length + c, hn, has, ?_⟩
    have hnot : ¬ as.length + c ≤ as.length := by omega
    rw [candidate, if_neg hnot, Nat.add_sub_cancel_left]
    rfl

/-- For any two candidates there is a run that gives both. -/
theorem exists_run {names : Set Bytes} {r s : Bytes} (hr : r ∈ Candidates names)
    (hs : s ∈ Candidates names) : ∃ fields, Over names fields ∧
      r ∈ createNames [] fields ∧ s ∈ createNames [] fields := by
  obtain ⟨f, i, hf, hfas, rfl⟩ := exists_candidate hr
  obtain ⟨g, j, hg, hgas, rfl⟩ := exists_candidate hs
  refine ⟨List.replicate (i + 1) f ++ List.replicate (j + 1) g, ?_, ?_, ?_⟩
  · refine List.forall_mem_append.mpr ⟨fun x hx => ?_, fun x hx => ?_⟩
    · rw [List.eq_of_mem_replicate hx]
      exact ⟨hf, hfas⟩
    · rw [List.eq_of_mem_replicate hx]
      exact ⟨hg, hgas⟩
  · have hmem := candidate_taken [] f (i + 1) i (Nat.lt_succ_self i)
    rw [List.append_nil, List.mem_reverse] at hmem
    rw [createNames_append]
    exact List.mem_append_left _ hmem
  · have hmem := candidate_taken (createNames [] (List.replicate (i + 1) f)).reverse g (j + 1) j
      (Nat.lt_succ_self j)
    rw [createNames_append, List.mem_append]
    rw [List.mem_append, List.mem_reverse, List.mem_reverse] at hmem
    rw [List.append_nil]
    exact hmem.symm

/-- The names differ in every run exactly if different candidates stay different. -/
theorem nodup_ruleNames_iff (names : Set Bytes) :
    (∀ fields, Over names fields → (ruleNames fields).Nodup) ↔ Unambiguous names := by
  constructor
  · intro h r hr s hs heq
    obtain ⟨fields, hover, hrmem, hsmem⟩ := exists_run hr hs
    rw [← trimPlus_eq, ← trimPlus_eq] at heq
    exact List.inj_on_of_nodup_map (h fields hover) hrmem hsmem heq
  · intro h fields hover
    refine (createNames_nodup [] fields).1.map_on fun r hr s hs heq => ?_
    rw [trimPlus_eq, trimPlus_eq] at heq
    exact h r (createNames_mem hover [] r hr) s (createNames_mem hover [] s hs) heq

/-! ## Legal names -/

theorem isLetter_toUpper (c : UInt8) : isLetter (toUpper c) = isLetter c := by
  rw [Bool.eq_iff_iff]
  simp only [isLetter, Bool.or_eq_true, Bool.and_eq_true, decide_eq_true_eq,
    UInt8.le_iff_toNat_le, UInt8.reduceToNat, toNat_toUpper]
  split <;> omega

theorem isDigit_toUpper (c : UInt8) : isDigit (toUpper c) = isDigit c := by
  rw [Bool.eq_iff_iff]
  simp only [isDigit, Bool.and_eq_true, decide_eq_true_eq, UInt8.le_iff_toNat_le,
    UInt8.reduceToNat, toNat_toUpper]
  split <;> omega

/-- No letter and no digit is deleted. -/
theorem plain_of_isIllegal {c : UInt8} (h : isIllegal c = true) :
    isLetter c = false ∧ isDigit c = false := by
  have hall : illegalChars.all (fun d => !isLetter d && !isDigit d) = true := by decide
  have hone := List.all_eq_true.mp hall c (List.mem_of_elem_eq_true h)
  simpa using hone

/-- A character that is kept is one of a rule name exactly if it is a letter or a digit. -/
theorem isRuleChar_toUpper {c : UInt8} (h : isIllegal c = false) (up : Bool) :
    isRuleChar (if up then toUpper c else c) = true ↔ isLetter c = true ∨ isDigit c = true := by
  have hdash : ∀ d, isLetter d = isLetter c → isDigit d = isDigit c → (d = 45 → c = 45) →
      (isRuleChar d = true ↔ isLetter c = true ∨ isDigit c = true) := by
    intro d hletter hdigit hd
    rw [isRuleChar, hletter, hdigit, Bool.or_eq_true, Bool.or_eq_true, beq_iff_eq]
    refine ⟨fun hor => hor.elim id fun heq => ?_, .inl⟩
    rw [hd heq] at h
    exact absurd h (by decide)
  cases up with
  | false => exact hdash c rfl rfl id
  | true =>
      exact hdash (toUpper c) (isLetter_toUpper c) (isDigit_toUpper c)
        (toUpper_eq_iff (by decide)).mp

/-- The characters of a cleaned text are those of rule names if the kept ones are. -/
theorem forall_mem_trimmed (s : Bytes) (up : Bool) :
    (∀ c ∈ trimmed isIllegal up s, isRuleChar c = true) ↔
      ∀ c ∈ s, isLetter c = true ∨ isDigit c = true ∨ isIllegal c = true := by
  induction s generalizing up with
  | nil => exact ⟨fun _ => List.forall_mem_nil _, fun _ => List.forall_mem_nil _⟩
  | cons c s ih =>
      rw [trimmed, List.forall_mem_cons]
      cases hc : isIllegal c with
      | true =>
          rw [if_pos rfl, ih]
          exact ⟨fun h => ⟨.inr (.inr rfl), h⟩, fun h => h.2⟩
      | false =>
          rw [if_neg Bool.false_ne_true, List.forall_mem_cons, ih, isRuleChar_toUpper hc]
          simp only [Bool.false_eq_true, or_false]

/-- A cleaned text begins with what its first kept character becomes. -/
theorem head?_trimmed (s : Bytes) (up : Bool) :
    (trimmed isIllegal up s).head?.map isLetter =
      (s.filter fun c => !isIllegal c).head?.map isLetter := by
  induction s generalizing up with
  | nil => rfl
  | cons c s ih =>
      rw [trimmed, List.filter_cons]
      cases hc : isIllegal c with
      | true => exact ih true
      | false =>
          cases up with
          | false => rfl
          | true => exact congrArg some (isLetter_toUpper c)

/-- What the clean-up makes of a text is a rule name exactly if the text is spelled so and
anything of it is kept. -/
theorem trimPlus_mem_rulename (r : Bytes) : trimPlus r ∈ rulename.matches' ↔
    Spelled r ∧ (r.filter fun c => !isIllegal c) ≠ [] := by
  have hchars := forall_mem_trimmed r false
  have hhead := head?_trimmed r false
  rw [trimPlus_eq, mem_rulename, Spelled, ← hchars]
  cases hout : trimmed isIllegal false r with
  | nil =>
      rw [hout, List.head?_nil, Option.map_none, eq_comm, Option.map_eq_none_iff,
        List.head?_eq_none_iff] at hhead
      refine ⟨fun h => ?_, fun h => absurd hhead h.2⟩
      obtain ⟨c, s, -, -, heq⟩ := h
      cases heq
  | cons d t =>
      rw [hout, List.head?_cons, Option.map_some, eq_comm, Option.map_eq_some_iff] at hhead
      obtain ⟨c, hc, hcd⟩ := hhead
      rw [hc, List.forall_mem_cons]
      constructor
      · intro h
        obtain ⟨e, s, he, hs, heq⟩ := h
        cases heq
        refine ⟨⟨⟨by rw [isRuleChar, he]; rfl, hs⟩, ?_⟩, ?_⟩
        · intro c' hc'
          cases hc'
          rw [hcd, he]
        · intro hnil
          rw [hnil] at hc
          cases hc
      · intro h
        have hletter := h.1.2 c rfl
        exact ⟨d, t, by rw [← hcd, hletter], h.1.1.2, rfl⟩

theorem spelled_append {s t : Bytes} (hs : Spelled s) (ht : Spelled t) : Spelled (s ++ t) := by
  refine ⟨List.forall_mem_append.mpr ⟨hs.1, ht.1⟩, ?_⟩
  rw [List.filter_append]
  cases hkept : s.filter fun c => !isIllegal c with
  | nil => exact ht.2
  | cons c u =>
      have hhead := hs.2
      rw [hkept] at hhead
      exact hhead

theorem spelled_of_append {s t : Bytes} (h : Spelled (s ++ t)) : Spelled s := by
  refine ⟨fun c hc => h.1 c (List.mem_append_left t hc), ?_⟩
  have hhead := h.2
  rw [List.filter_append] at hhead
  cases hkept : s.filter fun c => !isIllegal c with
  | nil =>
      intro c hc
      cases hc
  | cons c u =>
      rw [hkept] at hhead
      exact hhead

theorem spelled_flatten {as : List Bytes} (h : ∀ a ∈ as, Spelled a) : Spelled as.flatten := by
  induction as with
  | nil => exact ⟨List.forall_mem_nil _, fun c hc => by cases hc⟩
  | cons a as ih =>
      obtain ⟨ha, hrest⟩ := List.forall_mem_cons.mp h
      rw [List.flatten_cons]
      exact spelled_append ha (ih hrest)

/-- A number behind a text that keeps a character changes nothing. -/
theorem spelled_append_digits {s t : Bytes} (hs : Spelled s)
    (hkept : (s.filter fun c => !isIllegal c) ≠ []) (ht : ∀ c ∈ t, isDigit c = true) :
    Spelled (s ++ t) := by
  refine ⟨List.forall_mem_append.mpr ⟨hs.1, fun c hc => .inr (.inl (ht c hc))⟩, ?_⟩
  obtain ⟨c, u, heq⟩ := List.exists_cons_of_ne_nil hkept
  have hhead := hs.2
  rw [heq] at hhead
  rw [List.filter_append, heq]
  exact hhead

theorem kept_of_startsWithLetter {n : Bytes} (h : StartsWithLetter n) :
    (n.filter fun c => !isIllegal c) ≠ [] := by
  obtain ⟨c, hc, hletter⟩ := h
  have hmem := List.mem_of_mem_head? hc
  have hkeep : isIllegal c = false := by
    rw [← Bool.not_eq_true]
    intro hillegal
    rw [(plain_of_isIllegal hillegal).1] at hletter
    cases hletter
  refine List.ne_nil_of_mem (List.mem_filter.mpr ⟨hmem, ?_⟩)
  rw [hkeep]
  rfl

/-- The candidates of a field whose name begins with a letter become rule names if all names
are spelled so. -/
theorem candidate_mem_rulename {f : Field} (hname : Spelled f.name)
    (hletter : StartsWithLetter f.name) (hancestors : ∀ a ∈ f.ancestors, Spelled a) (j : Nat) :
    trimPlus (candidate [] f.name f.ancestors j) ∈ rulename.matches' := by
  have htext : ∀ as : List Bytes, (∀ a ∈ as, Spelled a) → Spelled (as.flatten ++ f.name) ∧
      ((as.flatten ++ f.name).filter fun c => !isIllegal c) ≠ [] := by
    intro as has
    refine ⟨spelled_append (spelled_flatten has) hname, ?_⟩
    rw [List.filter_append]
    exact List.append_ne_nil_of_right_ne_nil _ (kept_of_startsWithLetter hletter)
  rw [trimPlus_mem_rulename, candidate]
  split
  · exact htext _ fun a ha => hancestors a ((List.take_sublist j f.ancestors).subset ha)
  · obtain ⟨hspelled, hkept⟩ := htext f.ancestors hancestors
    refine ⟨spelled_append_digits hspelled hkept fun c => isDigit_of_mem_showNat, ?_⟩
    rw [List.nil_append, List.filter_append]
    exact List.append_ne_nil_of_left_ne_nil hkept _

/-- Each name is what the clean-up makes of a candidate of its field. -/
theorem zip_ruleNames {fields : List Field} {p : Field × Bytes}
    (h : p ∈ fields.zip (ruleNames fields)) :
    p.1 ∈ fields ∧ ∃ j, p.2 = trimPlus (candidate [] p.1.name p.1.ancestors j) := by
  refine ⟨(List.of_mem_zip h).1, ?_⟩
  have hgeneral : ∀ (fields : List Field) (taken : List Bytes),
      p ∈ fields.zip ((createNames taken fields).map trimPlus) →
        ∃ j, p.2 = trimPlus (candidate [] p.1.name p.1.ancestors j) := by
    intro fields
    induction fields with
    | nil =>
        intro taken hp
        cases hp
    | cons f fields ih =>
        intro taken hp
        rw [createNames, List.map_cons, List.zip_cons_cons] at hp
        cases List.mem_cons.mp hp with
        | inl heq =>
            obtain ⟨j, hj, -, -⟩ := createName_spec taken f
            exact ⟨j, by rw [heq, hj]⟩
        | inr hrest => exact ih _ hrest
  exact hgeneral fields [] h

/-- The names of fields that begin with a letter are rule names in every run exactly if the
field names are spelled so. -/
theorem legal_ruleNames_iff (names : Set Bytes) :
    (∀ fields, Over names fields → ∀ p ∈ fields.zip (ruleNames fields),
      StartsWithLetter p.1.name → p.2 ∈ rulename.matches') ↔ Spellable names := by
  constructor
  · intro h hletter a ha
    obtain ⟨n, hn, hletter⟩ := hletter
    by_cases hnil : a = []
    · rw [hnil]
      exact spelled_flatten (List.forall_mem_nil _)
    · -- the second field of a name gets the one above it in front
      have hover : Over names [⟨n, []⟩, ⟨n, [a]⟩] := by
        refine List.forall_mem_cons.mpr ⟨⟨hn, List.forall_mem_nil _⟩, ?_⟩
        exact List.forall_mem_singleton.mpr ⟨hn, List.forall_mem_singleton.mpr ha⟩
      have hne : a ++ n ≠ n := fun heq => hnil (List.append_left_eq_self.mp heq)
      have hnames : ruleNames [⟨n, []⟩, ⟨n, [a]⟩] = [trimPlus n, trimPlus (a ++ n)] := by
        have hfirst : createName [] ⟨n, []⟩ = n := if_pos (not_contains.mpr List.not_mem_nil)
        have hsecond : createName [n] ⟨n, [a]⟩ = a ++ n := by
          have hnew : a ++ n ∉ [n] := by
            rw [List.mem_singleton]
            exact hne
          rw [createName, if_neg (by rw [not_contains]; exact not_not.mpr List.mem_cons_self),
            climb, List.nil_append, if_pos (not_contains.mpr hnew)]
        rw [ruleNames, createNames, createNames, hfirst, hsecond]
        rfl
      have hrule := h _ hover (⟨n, [a]⟩, trimPlus (a ++ n)) (by rw [hnames]; simp) hletter
      exact spelled_of_append ((trimPlus_mem_rulename (a ++ n)).mp hrule).1
  · intro h fields hover p hp hletter
    obtain ⟨hmem, j, hj⟩ := zip_ruleNames hp
    obtain ⟨hname, hancestors⟩ := hover p.1 hmem
    have hall := h ⟨p.1.name, hname, hletter⟩
    rw [hj]
    exact candidate_mem_rulename (hall _ hname) hletter (fun a ha => hall a (hancestors a ha)) j

/-! ## The result -/

/-- For a set of field names, the rule names of the nodes are distinct and legal in every run
exactly if different candidates stay different and the names have legal characters. -/
theorem dissected_names_iff (names : Set Bytes) :
    (∀ fields, Over names fields → WellNamed fields) ↔ Unambiguous names ∧ Spellable names := by
  rw [← nodup_ruleNames_iff, ← legal_ruleNames_iff]
  exact ⟨fun h => ⟨fun fields hover => (h fields hover).1, fun fields hover => (h fields hover).2⟩,
    fun h fields hover => ⟨h.1 fields hover, h.2 fields hover⟩⟩

/-- Names of letters and digits with a letter first meet both conditions. -/
theorem plain_names {names : Set Bytes} (h : ∀ a ∈ names, ∃ c s, a = c :: s ∧ isLetter c = true ∧
    ∀ d ∈ s, isLetter d = true ∨ isDigit d = true) : Unambiguous names ∧ Spellable names := by
  have hplain : ∀ a ∈ names, ∀ c ∈ a, isLetter c = true ∨ isDigit c = true := by
    intro a ha
    obtain ⟨c, s, rfl, hc, hs⟩ := h a ha
    exact List.forall_mem_cons.mpr ⟨.inl hc, hs⟩
  have hkeep : ∀ c, isLetter c = true ∨ isDigit c = true → isIllegal c = false := by
    intro c hc
    rw [← Bool.not_eq_true]
    intro hillegal
    obtain ⟨hletter, hdigit⟩ := plain_of_isIllegal hillegal
    rw [hletter, hdigit] at hc
    cases hc with
    | inl h => cases h
    | inr h => cases h
  have hcandidate : ∀ r ∈ Candidates names, trimmed isIllegal false r = r := by
    intro r hr
    obtain ⟨n, hn, as, has, hor⟩ := hr
    have htext : ∀ c ∈ as.flatten ++ n, isLetter c = true ∨ isDigit c = true := by
      refine List.forall_mem_append.mpr ⟨fun c hc => ?_, hplain n hn⟩
      obtain ⟨a, ha, hca⟩ := List.mem_flatten.mp hc
      exact hplain a (has a ha) c hca
    refine trimmed_self fun c hc => hkeep c ?_
    cases hor with
    | inl heq =>
        rw [heq] at hc
        exact htext c hc
    | inr hor =>
        obtain ⟨d, -, heq⟩ := hor
        rw [heq] at hc
        exact (List.mem_append.mp hc).elim (htext c) fun h => .inr (isDigit_of_mem_showNat h)
  refine ⟨fun r hr s hs heq => ?_, fun _ a ha => ?_⟩
  · rw [hcandidate r hr, hcandidate s hs] at heq
    exact heq
  · obtain ⟨c, s, rfl, hc, hs⟩ := h a ha
    refine ⟨fun d hd => (hplain _ ha d hd).elim .inl fun h => .inr (.inl h), ?_⟩
    rw [List.filter_cons, hkeep c (.inl hc)]
    intro d hd
    cases hd
    exact hc

/-- Two field names that differ only in a blank give one rule name to two nodes. -/
theorem blank_same_name : ¬ WellNamed [⟨[97, 32, 98], []⟩, ⟨[97, 66], []⟩] := by
  have hnames : ruleNames [⟨[97, 32, 98], []⟩, ⟨[97, 66], []⟩] = [[97, 66], [97, 66]] := by
    rw [ruleNames, funext trimPlus_eq]
    decide
  intro h
  have hnodup := h.1
  rw [hnames] at hnodup
  exact absurd hnodup (by decide)

end Stress.Dissector

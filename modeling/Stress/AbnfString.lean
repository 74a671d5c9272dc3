import Stress.Literals
import Stress.Tokens

/-!
# The text of a captured value

`Util::getABNFString` of the dissector (`src/tools/dissector/src/util.cpp`) writes the
hexadecimal dump of a value as quoted text and hexadecimal literals in turn, for the
tester to read.

The loop keeps two flags for what it is inside of.  What it writes is a sequence of
runs, each of printable bytes or of others (`abnfText_string`, `abnfText_hex`), and the
scanner cuts it at the same places, since a run of one kind is followed by a blank.
-/

namespace Stress

open RegularExpression

/-! ## The dissector -/

/-- The number of the hexadecimal digits at the head of a text. -/
def hexNat (s : Bytes) : Nat := valueOf 4 (s.takeWhile isHexDigit)

/-- `strtol(s, NULL, 16)` of a text of at most two characters. -/
def strtolHex (s : Bytes) : Int :=
  match s.dropWhile isSpace with
  | 45 :: t => -(hexNat t : Int)
  | 43 :: t => hexNat t
  | t => hexNat t

/-- The loop of `getABNFString` with its flags. -/
def abnfStringLoop : Bool → Bool → Bytes → Bytes
  | instring, inhex, c :: d :: s =>
      let v := strtolHex [c, d]
      if 32 ≤ v ∧ v ≤ 126 ∧ v ≠ 34 then
        (if instring then [] else [32, 34]) ++ v.toNat.toUInt8 :: abnfStringLoop true false s
      else
        (if instring then [34, 32] else []) ++ (if inhex then [] else [37, 120]) ++
          c :: d :: abnfStringLoop false true s
  | instring, _, _ => if instring then [34, 32] else []

/-- `Util::getABNFString`, `none` for the empty text: the unsigned bound of the loop wraps
around there and `substr` throws. -/
def getABNFString (hexstring : Bytes) : Option Bytes :=
  if hexstring = [] then none else some (abnfStringLoop false false hexstring)

/-- The lower-case hexadecimal dump. -/
def hexDump (b : Bytes) : Bytes := b.flatMap showHexByte

/-! ## Digits of a dump -/

theorem hexDigit?_high (c : UInt8) :
    hexDigit? (showHexDigit (c.toNat / 16)) = some (c.toNat / 16) :=
  hexDigit?_showHexDigit _ (Nat.div_lt_of_lt_mul c.toNat_lt)

theorem hexDigit?_low (c : UInt8) :
    hexDigit? (showHexDigit (c.toNat % 16)) = some (c.toNat % 16) :=
  hexDigit?_showHexDigit _ (Nat.mod_lt _ (by decide))

theorem isHexDigit_of_mem_hexDump {b : Bytes} : ∀ d ∈ hexDump b, isHexDigit d = true := by
  intro d hd
  obtain ⟨c, _, hmem⟩ := List.mem_flatMap.mp hd
  rw [showHexByte, List.mem_cons, List.mem_singleton] at hmem
  rw [isHexDigit]
  obtain rfl | rfl := hmem
  · rw [hexDigit?_high]
    rfl
  · rw [hexDigit?_low]
    rfl

theorem length_hexDump (b : Bytes) : (hexDump b).length = 2 * b.length := by
  induction b with
  | nil => rfl
  | cons c b ih =>
      rw [hexDump, List.flatMap_cons, List.length_append, ← hexDump, ih, showHexByte,
        List.length_cons, List.length_cons, List.length_cons, List.length_nil]
      omega

/-- A dump is decoded to the bytes it was made of. -/
theorem hexText_hexDump (b : Bytes) : hexText (hexDump b) = b := by
  induction b with
  | nil => rfl
  | cons c b ih =>
      have hcons : hexDump (c :: b) =
          showHexDigit (c.toNat / 16) :: showHexDigit (c.toNat % 16) :: hexDump b := rfl
      rw [hcons, hexText, ih, hexDigit?_high, hexDigit?_low, Option.getD_some, Option.getD_some,
        Nat.div_add_mod]
      rw [Nat.toUInt8_eq, UInt8.ofNat_toNat]

theorem strtolHex_showHexByte (c : UInt8) : strtolHex (showHexByte c) = c.toNat := by
  have hhigh : isHexDigit (showHexDigit (c.toNat / 16)) = true := by
    rw [isHexDigit, hexDigit?_high]
    rfl
  have hlow : isHexDigit (showHexDigit (c.toNat % 16)) = true := by
    rw [isHexDigit, hexDigit?_low]
    rfl
  obtain ⟨hspace, hplus, hminus⟩ := not_isSpace_of_isHexDigit hhigh
  have hnat : hexNat (showHexByte c) = c.toNat := by
    rw [hexNat, showHexByte, List.takeWhile_cons, hhigh, if_pos rfl, List.takeWhile_cons, hlow,
      if_pos rfl, List.takeWhile_nil, valueOf_cons, valueOf_cons, hexDigit?_high, hexDigit?_low]
    simp [valueOf]
    omega
  rw [strtolHex, showHexByte, List.dropWhile_cons, hspace, if_neg Bool.false_ne_true]
  split
  · next h =>
      exact absurd (List.cons.inj h).1 hminus
  · next h =>
      exact absurd (List.cons.inj h).1 hplus
  · rw [← showHexByte, hnat]

/-! ## Runs -/

/-- One byte of the value in the loop. -/
theorem abnfStringLoop_cons (instring inhex : Bool) (c : UInt8) (b : Bytes) :
    abnfStringLoop instring inhex (hexDump (c :: b)) =
      if isText c then
        (if instring then [] else [32, 34]) ++ c :: abnfStringLoop true false (hexDump b)
      else
        (if instring then [34, 32] else []) ++ (if inhex then [] else [37, 120]) ++
          showHexByte c ++ abnfStringLoop false true (hexDump b) := by
  have hcons : hexDump (c :: b) =
      showHexDigit (c.toNat / 16) :: showHexDigit (c.toNat % 16) :: hexDump b := rfl
  have hvalue := strtolHex_showHexByte c
  rw [showHexByte] at hvalue
  have htext : isText c = true ↔
      32 ≤ (c.toNat : Int) ∧ (c.toNat : Int) ≤ 126 ∧ (c.toNat : Int) ≠ 34 := by
    simp only [isText, Bool.or_eq_true, Bool.and_eq_true, decide_eq_true_eq,
      UInt8.le_iff_toNat_le, UInt8.reduceToNat]
    omega
  rw [hcons, abnfStringLoop, hvalue]
  by_cases h : isText c = true
  · rw [if_pos h, if_pos (htext.mp h), Int.toNat_natCast, Nat.toUInt8_eq, UInt8.ofNat_toNat]
  · rw [if_neg h, if_neg (fun hc => h (htext.mpr hc)), showHexByte]
    simp

/-- What the loop writes for a value. -/
def abnfText (b : Bytes) : Bytes := abnfStringLoop false false (hexDump b)

/-- Inside of a string the loop goes on to the end of the printable bytes. -/
theorem abnfStringLoop_string (b : Bytes) : abnfStringLoop true false (hexDump b) =
    b.takeWhile isText ++ [34, 32] ++ abnfText (b.dropWhile isText) := by
  induction b with
  | nil => rfl
  | cons c b ih =>
      rw [abnfStringLoop_cons, List.takeWhile_cons, List.dropWhile_cons]
      by_cases h : isText c = true
      · rw [if_pos h, if_pos h, if_pos h, ih]
        rfl
      · rw [if_neg h, if_neg h, if_neg h, abnfText, abnfStringLoop_cons, if_neg h]
        rfl

/-- Inside of a literal the loop goes on to the next printable byte. -/
theorem abnfStringLoop_hex (b : Bytes) : abnfStringLoop false true (hexDump b) =
    hexDump (b.takeWhile fun c => !isText c) ++ abnfText (b.dropWhile fun c => !isText c) := by
  induction b with
  | nil => rfl
  | cons c b ih =>
      rw [abnfStringLoop_cons, List.takeWhile_cons, List.dropWhile_cons]
      by_cases h : isText c = true
      · have hnot : ¬ (!isText c) = true := by
          rw [h]
          exact nofun
        rw [if_pos h, if_neg hnot, if_neg hnot, abnfText, abnfStringLoop_cons, if_pos h]
        rfl
      · have hnot : (!isText c) = true := by
          rw [Bool.eq_false_iff.mpr h]
          rfl
        rw [if_neg h, if_pos hnot, if_pos hnot, ih]
        simp [hexDump, List.flatMap_cons]

/-- A run of printable bytes is quoted. -/
theorem abnfText_string {c : UInt8} {b : Bytes} (h : isText c = true) : abnfText (c :: b) =
    32 :: (34 :: (c :: b).takeWhile isText ++ [34]) ++
      32 :: abnfText ((c :: b).dropWhile isText) := by
  rw [abnfText, abnfStringLoop_cons, if_pos h, abnfStringLoop_string, List.takeWhile_cons,
    List.dropWhile_cons, if_pos h, if_pos h]
  simp

/-- A run of other bytes is one literal. -/
theorem abnfText_hex {c : UInt8} {b : Bytes} (h : isText c = false) : abnfText (c :: b) =
    ([37, 120] ++ hexDump ((c :: b).takeWhile fun c => !isText c)) ++
      abnfText ((c :: b).dropWhile fun c => !isText c) := by
  have hnot : (!isText c) = true := by
    rw [h]
    rfl
  rw [abnfText, abnfStringLoop_cons, if_neg (Bool.eq_false_iff.mp h), abnfStringLoop_hex,
    List.takeWhile_cons, List.dropWhile_cons, if_pos hnot, if_pos hnot]
  simp [hexDump, List.flatMap_cons]

/-! ## The tokens of a run -/

/-- Digits behind `%x` as a token. -/
def hexToken (ds : Bytes) (hne : ds ≠ []) (h : ∀ d ∈ ds, isHexDigit d = true) : Lexeme hexval where
  text := [37, 120] ++ ds
  mem := by
    have hdigits : ds ∈ (many1 (cls isHexdig)).matches' :=
      mem_many1_cls.mpr ⟨hne, fun d hd => by rw [isHexdig, h d hd]; rfl⟩
    refine mem_mul.mpr ⟨[37, 120], mem_add.mpr (.inl (mem_str.mpr rfl)), ds, ?_, rfl⟩
    exact mem_mul.mpr ⟨ds, hdigits, [], mem_opt.mpr (.inl rfl), List.append_nil ds⟩

/-! ## The way back -/

/-- What comes behind a string is a literal, if anything. -/
theorem head?_after_string (b : Bytes) :
    ∀ c ∈ (abnfText (b.dropWhile isText)).head?, c = 37 := by
  have hnot := List.head?_dropWhile_not isText b
  intro c hc
  cases hrest : b.dropWhile isText with
  | nil =>
      rw [hrest] at hc
      cases hc
  | cons d rest =>
      rw [hrest, List.head?_cons] at hnot
      rw [hrest, abnfText_hex hnot] at hc
      exact (Option.some.inj hc).symm

/-- What comes behind a literal is a blank, if anything. -/
theorem head?_after_hex (b : Bytes) :
    ∀ c ∈ (abnfText (b.dropWhile fun c => !isText c)).head?, c = 32 := by
  have hnot := List.head?_dropWhile_not (fun c => !isText c) b
  intro c hc
  cases hrest : b.dropWhile fun c => !isText c with
  | nil =>
      rw [hrest] at hc
      cases hc
  | cons d rest =>
      rw [hrest, List.head?_cons] at hnot
      rw [hrest, abnfText_string (by simpa using hnot)] at hc
      exact (Option.some.inj hc).symm

/-- A quoted text is sent without the quotes. -/
theorem sends_quoted {text : Bytes} (h : ∀ c ∈ text, isText c = true) (id : Nat) :
    (Literal.charval (quoted text h)).sends id = text := by
  have hquote : (34 : UInt8) ∉ text := fun hmem => by cases h 34 hmem
  have hname : (Literal.charval (quoted text h)).name = [92, 34] ++ text ++ [92, 34] := by
    simp [Literal.name, quoted, ascii]
  rw [Literal.sends, hname]
  refine (leafState_denotes (.charval text hquote)).trans ?_
  simp [denLeaf, charvalText]

/-- A dump behind `%x` is sent as the bytes it was made of. -/
theorem sends_hexToken {b : Bytes} (hne : hexDump b ≠ []) (id : Nat) :
    (Literal.hexval (hexToken (hexDump b) hne isHexDigit_of_mem_hexDump)).sends id = b := by
  have heven : (hexDump b).length % 2 = 0 := by
    rw [length_hexDump]
    omega
  refine (leafState_denotes (.hexval _ isHexDigit_of_mem_hexDump heven)).trans ?_
  exact hexText_hexDump b

/-- The literals of a text, one for each run. -/
structure Replays (b : Bytes) (ls : List Literal) : Prop where
  rules : ∀ l ∈ ls, l.token.rule = .charval ∨ l.token.rule = .hexval
  tokens : ∀ fuel, (abnfText b).length + 2 ≤ fuel →
    scan fuel [abnfText b] = some (ls.map Literal.token)
  sends : ls.flatMap (Literal.sends 0) = b

theorem Replays.string {c : UInt8} {b : Bytes} {ls : List Literal} (hc : isText c = true)
    (h : Replays ((c :: b).dropWhile isText) ls) : ∃ l, Replays (c :: b) (l :: ls) := by
  have htext : ∀ d ∈ (c :: b).takeWhile isText, isText d = true :=
    fun d hd => List.mem_takeWhile_imp hd
  have hblank := munch_blank (s := abnfText ((c :: b).dropWhile isText)) fun d hd => by
    rw [head?_after_string (c :: b) d hd]
    rfl
  let l := Literal.charval (quoted _ htext)
  refine ⟨l, List.forall_mem_cons.mpr ⟨.inl rfl, h.rules⟩, ?_, ?_⟩
  · intro fuel hfuel
    simp only [abnfText_string hc, List.length_append, List.length_cons] at hfuel
    obtain ⟨k, rfl⟩ : ∃ k, fuel = k + 3 := ⟨fuel - 3, by omega⟩
    have hopen : munch (32 :: (l.token.text ++ 32 :: abnfText ((c :: b).dropWhile isText))) =
        some (1, .blank) := munch_blank fun d hd => by cases hd; rfl
    have hstep := scan_literal (k + 1) [] l nofun
      (munch_charval (32 :: abnfText ((c :: b).dropWhile isText)) htext)
    rw [abnfText_string hc, List.cons_append]
    refine (scan_blank hopen).trans (hstep.trans ?_)
    rw [scan_blank hblank, h.tokens k (by omega)]
    rfl
  · rw [List.flatMap_cons, h.sends, sends_quoted htext, List.takeWhile_append_dropWhile]

theorem Replays.hex {c : UInt8} {b : Bytes} {ls : List Literal} (hc : isText c = false)
    (h : Replays ((c :: b).dropWhile fun c => !isText c) ls) :
    ∃ l, Replays (c :: b) (l :: ls) := by
  have hne : hexDump ((c :: b).takeWhile fun c => !isText c) ≠ [] := by
    have hnot : (!isText c) = true := by
      rw [hc]
      rfl
    rw [List.takeWhile_cons, if_pos hnot]
    exact nofun
  let l := Literal.hexval (hexToken _ hne isHexDigit_of_mem_hexDump)
  refine ⟨l, List.forall_mem_cons.mpr ⟨.inr rfl, h.rules⟩, ?_, ?_⟩
  · intro fuel hfuel
    rw [abnfText_hex hc, List.length_append, List.length_append, List.length_cons] at hfuel
    obtain ⟨k, rfl⟩ : ∃ k, fuel = k + 1 := ⟨fuel - 1, by omega⟩
    have hstep := scan_literal k [] l nofun (munch_literal l fun d hd => by
      rw [head?_after_hex (c :: b) d hd]
      rfl)
    rw [abnfText_hex hc]
    refine hstep.trans ?_
    rw [h.tokens k (by omega)]
    rfl
  · rw [List.flatMap_cons, h.sends, sends_hexToken hne, List.takeWhile_append_dropWhile]

/-- A value is printed run by run. -/
theorem runs_induction {P : Bytes → Prop} (nil : P [])
    (string : ∀ c b, isText c = true → P ((c :: b).dropWhile isText) → P (c :: b))
    (hex : ∀ c b, isText c = false → P ((c :: b).dropWhile fun c => !isText c) → P (c :: b))
    (b : Bytes) : P b := by
  induction hn : b.length using Nat.strong_induction_on generalizing b with
  | _ n ih =>
      cases b with
      | nil => exact nil
      | cons c b =>
          have hshorter : ∀ {p : UInt8 → Bool}, p c = true → ((c :: b).dropWhile p).length < n := by
            intro p hp
            rw [List.dropWhile_cons, if_pos hp, ← hn, List.length_cons]
            exact Nat.lt_succ_of_le (List.dropWhile_sublist p).length_le
          cases hc : isText c with
          | true => exact string c b hc (ih _ (hshorter hc) _ rfl)
          | false =>
              have hnot : (!isText c) = true := by
                rw [hc]
                rfl
              exact hex c b hc (ih _ (hshorter (p := fun c => !isText c) hnot) _ rfl)

/-- Every value is replayed, run after run. -/
theorem exists_replays (b : Bytes) : ∃ ls, Replays b ls := by
  induction b using runs_induction with
  | nil =>
      refine ⟨[], List.forall_mem_nil _, fun fuel hfuel => ?_, List.flatMap_nil⟩
      obtain ⟨k, rfl⟩ : ∃ k, fuel = k + 2 := ⟨fuel - 2, by omega⟩
      have hnil : abnfText [] = [] := rfl
      rw [hnil, scan, scan, List.map_nil]
  | string c b hc ih =>
      obtain ⟨ls, hls⟩ := ih
      obtain ⟨l, hl⟩ := hls.string hc
      exact ⟨l :: ls, hl⟩
  | hex c b hc ih =>
      obtain ⟨ls, hls⟩ := ih
      obtain ⟨l, hl⟩ := hls.hex hc
      exact ⟨l :: ls, hl⟩

/-- The text that the dissector writes for a value is scanned as strings and hexadecimal
literals only, and their leaves, whatever ids they have, send the value. -/
theorem abnfString_replays (b : Bytes) (hb : b ≠ []) : ∃ (text : Bytes) (ls : List Literal),
    getABNFString (hexDump b) = some text ∧
      (∀ l ∈ ls, l.token.rule = .charval ∨ l.token.rule = .hexval) ∧
      (∀ fuel, text.length + 2 ≤ fuel → scan fuel [text] = some (ls.map Literal.token)) ∧
      ∀ ids : Nat → Nat, (ls.zipIdx.flatMap fun p => p.1.sends (ids p.2)) = b := by
  obtain ⟨ls, h⟩ := exists_replays b
  refine ⟨abnfText b, ls, ?_, h.rules, h.tokens, fun ids => ?_⟩
  · have hne : hexDump b ≠ [] := by
      obtain ⟨c, b, rfl⟩ := List.exists_cons_of_ne_nil hb
      exact nofun
    exact if_neg hne
  · have hid : ∀ (l : Literal) (i : Nat), l.sends i = l.sends 0 := by
      intro l i
      rw [Literal.sends, Literal.sends, State.getStringToSend_eq, State.getStringToSend_eq]
      cases l <;> rfl
    calc ls.zipIdx.flatMap (fun p => p.1.sends (ids p.2))
        = ls.zipIdx.flatMap (fun p => p.1.sends 0) :=
          List.flatMap_congr fun p _ => hid p.1 (ids p.2)
      _ = (ls.zipIdx.map Prod.fst).flatMap (Literal.sends 0) := by rw [List.flatMap_map]
      _ = b := by rw [List.zipIdx_map_fst, h.sends]

/-- A line end, a quote and text in between. -/
theorem abnfString_replays_line : ascii "a\"b\r\n" ≠ [] ∧ ∃ (text : Bytes) (ls : List Literal),
    getABNFString (hexDump (ascii "a\"b\r\n")) = some text ∧
      (∀ l ∈ ls, l.token.rule = .charval ∨ l.token.rule = .hexval) ∧
      (∀ fuel, text.length + 2 ≤ fuel → scan fuel [text] = some (ls.map Literal.token)) ∧
      ∀ ids : Nat → Nat, (ls.zipIdx.flatMap fun p => p.1.sends (ids p.2)) = ascii "a\"b\r\n" :=
  ⟨by decide, abnfString_replays _ (by decide)⟩

end Stress

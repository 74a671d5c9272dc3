import Stress.AbnfString

/-!
# The hexadecimal helpers of the dissector

`Util::getABNFString` and `Util::dataToHex` (`src/tools/dissector/src/util.cpp`) with the
index and the bound of their loops: the index is an `int`, the bound is the unsigned
`length() - 1`.

Both loops read two characters at a time and differ in their stride.  For a text that
fits the index, the loop goes over `pairs stride`, the pairs of the text itself; the
bound of the empty text wraps around, and `substr` throws behind its end.
-/

namespace Stress

/-- What ends a call before its result. -/
inductive StringFault where
  /-- `substr` throws. -/
  | outOfRange
  /-- A string is made of a null pointer. -/
  | nullPointer
  /-- The index leaves its type, which is undefined. -/
  | overflow
deriving DecidableEq, Repr

/-- A string of a length that `max_size` admits. -/
structure StdString where
  chars : Bytes
  length_lt : chars.length < 2 ^ 63

namespace StdString

def length (s : StdString) : Nat := s.chars.length

/-- `substr(pos, n)`, which throws behind the end of the string. -/
def substr (s : StdString) (pos n : Nat) : Except StringFault Bytes :=
  if pos ≤ s.length then .ok ((s.chars.drop pos).take n) else .error .outOfRange

/-- `length() - 1`, in 64 unsigned bits. -/
def last (s : StdString) : Nat := (s.length + (2 ^ 64 - 1)) % 2 ^ 64

def empty : StdString := ⟨[], by decide⟩

theorem last_of_pos {s : StdString} (h : 0 < s.length) : s.last = s.length - 1 := by
  have hlt : s.length < 2 ^ 63 := s.length_lt
  rw [last]
  omega

theorem last_of_length_eq_zero {s : StdString} (h : s.length = 0) : s.last = 2 ^ 64 - 1 := by
  rw [last, h, Nat.zero_add]
  rfl

theorem substr_of_le {s : StdString} {pos : Nat} (h : pos ≤ s.length) (n : Nat) :
    s.substr pos n = .ok ((s.chars.drop pos).take n) := if_pos h

theorem substr_of_lt {s : StdString} {pos : Nat} (h : s.length < pos) (n : Nat) :
    s.substr pos n = .error .outOfRange := if_neg (Nat.not_le.mpr h)

end StdString

namespace Util

open StdString

/-! ## The loops -/

/-- `INT_MAX`. -/
@[irreducible] def intMax : Nat := 2147483647

theorem intMax_eq : intMax = 2147483647 := by rw [intMax]

theorem one_lt_intMax : 1 < intMax := by rw [intMax_eq]; decide

theorem three_pos : 0 < 3 := Nat.succ_pos 2

theorem two_dvd : 2 ∣ intMax - 1 := by rw [intMax_eq]; decide

theorem three_dvd : 3 ∣ intMax - 1 := by rw [intMax_eq]; decide

/-- `while (i < bound)` over `s.substr(i, 2)`, with `i = i + stride` at its end,
for an index of at most `max`. -/
def pairLoop {σ : Type} (s : StdString) (step : σ → Bytes → σ) (stride : Nat)
    (bound max : Nat) (hstride : 0 < stride) (i : Nat) (x : σ) : Except StringFault σ :=
  if i < bound then
    match s.substr i 2 with
    | .error fault => .error fault
    | .ok str =>
        if i + stride ≤ max then
          pairLoop s step stride bound max hstride (i + stride) (step x str)
        else
          .error .overflow
  else
    .ok x
termination_by max - i

/-- The variables of `getABNFString` besides the index. -/
structure AbnfOutput where
  inhex : Bool := false
  instring : Bool := false
  output : Bytes := []
deriving DecidableEq, Repr

/-- The body of the loop of `getABNFString`. -/
def abnfStep (x : AbnfOutput) (str : Bytes) : AbnfOutput :=
  let v := strtolHex str
  if 32 ≤ v ∧ v ≤ 126 ∧ v ≠ 34 then
    { inhex := false
      instring := true
      output := x.output ++ (if x.instring then [] else [32, 34]) ++ [v.toNat.toUInt8] }
  else
    { inhex := true
      instring := false
      output := x.output ++ (if x.instring then [34, 32] else []) ++
        (if x.inhex then [] else [37, 120]) ++ str }

/-- The closing quotation mark behind the loop. -/
def AbnfOutput.str (x : AbnfOutput) : Bytes :=
  x.output ++ if x.instring then [34, 32] else []

/-- `Util::getABNFString`. -/
def getABNFString (hexstring : StdString) : Except StringFault Bytes :=
  (pairLoop hexstring abnfStep 2 hexstring.last intMax Nat.two_pos 0 {}).map AbnfOutput.str

/-- `hexString << setw(2) << str`. -/
def setw2 (hexString str : Bytes) : Bytes :=
  hexString ++ (List.replicate (2 - str.length) 32 ++ str)

/-- `Util::dataToHex`. -/
def dataToHex (data : StdString) : Except StringFault Bytes :=
  pairLoop data setw2 3 data.last intMax three_pos 0 []

/-! ## The pairs of a text -/

/-- The pairs of characters that start at the multiples of the stride. -/
def pairs (stride : Nat) : Bytes → List Bytes
  | c :: d :: s => [c, d] :: pairs stride (s.drop (stride - 2))
  | _ => []
termination_by s => s.length
decreasing_by
  simp only [List.length_drop, List.length_cons]
  omega

theorem pairs_eq_nil {stride : Nat} {s : Bytes} (h : s.length < 2) : pairs stride s = [] := by
  cases s with
  | nil => rw [pairs.eq_def]
  | cons c s =>
      cases s with
      | nil => rw [pairs.eq_def]
      | cons d s =>
          rw [List.length_cons, List.length_cons] at h
          omega

theorem pairs_drop {stride i : Nat} {s : Bytes} (hstride : 2 ≤ stride) (h : i + 2 ≤ s.length) :
    pairs stride (s.drop i) = (s.drop i).take 2 :: pairs stride (s.drop (i + stride)) := by
  have hlength : (s.drop i).length = s.length - i := List.length_drop
  have hrest : s.drop (i + stride) = (s.drop i).drop stride := by rw [List.drop_drop]
  rw [hrest]
  cases hs : s.drop i with
  | nil =>
      rw [hs, List.length_nil] at hlength
      omega
  | cons c t =>
      cases t with
      | nil =>
          rw [hs, List.length_cons, List.length_nil] at hlength
          omega
      | cons d t =>
          obtain ⟨k, rfl⟩ : ∃ k, stride = k + 2 := ⟨stride - 2, by omega⟩
          rw [pairs, Nat.add_sub_cancel, List.drop_succ_cons, List.drop_succ_cons]
          rfl

/-! ## Where the loops end -/

section Loop

variable {σ : Type} {s : StdString} {step : σ → Bytes → σ} {stride bound max i : Nat} {x : σ}

theorem pairLoop_of_le (hstride : 0 < stride) (h : bound ≤ i) :
    pairLoop s step stride bound max hstride i x = .ok x := by
  rw [pairLoop, if_neg (Nat.not_lt.mpr h)]

theorem pairLoop_of_lt (hstride : 0 < stride) (h : i < bound) (hi : i ≤ s.length) :
    pairLoop s step stride bound max hstride i x =
      if i + stride ≤ max then
        pairLoop s step stride bound max hstride (i + stride) (step x ((s.chars.drop i).take 2))
      else
        .error .overflow := by
  rw [pairLoop, if_pos h, substr_of_le hi]

/-- The stride meets `INT_MAX - 1`, so an index below it does not jump over it. -/
theorem add_stride_le (hdvd : stride ∣ i) (hmax : stride ∣ max - 1) (h : i < max - 1) :
    i + stride ≤ max - 1 := by
  obtain ⟨a, rfl⟩ := hdvd
  obtain ⟨b, hb⟩ := hmax
  rw [hb] at h ⊢
  have hlt : a < b := Nat.lt_of_mul_lt_mul_left h
  have hle : stride * (a + 1) ≤ stride * b := Nat.mul_le_mul_left stride hlt
  rw [Nat.mul_add, Nat.mul_one] at hle
  exact hle

theorem not_dvd_max (hstride : 2 ≤ stride) (hmax : stride ∣ max - 1) (hpos : 0 < max) :
    ¬ stride ∣ max := by
  intro hdvd
  have hsub : max - (max - 1) = 1 := by omega
  have hone : stride ∣ 1 := hsub ▸ Nat.dvd_sub hdvd hmax
  have hle := Nat.le_of_dvd Nat.one_pos hone
  omega

/-- A text that fits the index is gone over pair by pair. -/
theorem pairLoop_eq (hstride : 2 ≤ stride) (hmax : stride ∣ max - 1) (hdvd : stride ∣ i)
    (hpos : 0 < s.length) (hle : s.length ≤ max) :
    pairLoop s step stride s.last max (Nat.zero_lt_of_lt hstride) i x =
      .ok ((pairs stride (s.chars.drop i)).foldl step x) := by
  have hlast := last_of_pos hpos
  have hlength : s.chars.length = s.length := rfl
  induction hn : max - i using Nat.strong_induction_on generalizing i x with
  | _ n ih =>
      by_cases hi : i < s.last
      · have hnext := add_stride_le hdvd hmax (by omega)
        have hdvd' : stride ∣ i + stride := Nat.dvd_add_self_right.mpr hdvd
        rw [pairLoop_of_lt _ hi (by omega), if_pos (by omega),
          ih (max - (i + stride)) (by omega) hdvd' rfl, pairs_drop (i := i) hstride (by omega),
          List.foldl_cons]
      · have hshort : (s.chars.drop i).length < 2 := by
          rw [List.length_drop]
          omega
        rw [pairLoop_of_le _ (Nat.not_lt.mp hi), pairs_eq_nil hshort, List.foldl_nil]

/-- A longer text carries the index out of its type. -/
theorem pairLoop_overflow (hstride : 2 ≤ stride) (hmax : stride ∣ max - 1)
    (hpos : 0 < max) (hdvd : stride ∣ i) (hi : i ≤ max) (hlength : max < s.length) :
    pairLoop s step stride s.last max (Nat.zero_lt_of_lt hstride) i x = .error .overflow := by
  have hlast := last_of_pos (Nat.lt_of_le_of_lt (Nat.zero_le _) hlength)
  have hne : i ≠ max := by
    rintro rfl
    exact not_dvd_max hstride hmax hpos hdvd
  induction hn : max - i using Nat.strong_induction_on generalizing i x with
  | _ n ih =>
      rw [pairLoop_of_lt _ (by omega) (by omega)]
      by_cases hnext : i + stride ≤ max
      · have hdvd' : stride ∣ i + stride := Nat.dvd_add_self_right.mpr hdvd
        have hne' : i + stride ≠ max := fun heq => not_dvd_max hstride hmax hpos (heq ▸ hdvd')
        rw [if_pos hnext, ih (max - (i + stride)) (by omega) hdvd' hnext hne' rfl]
      · rw [if_neg hnext]

/-- The second pair of the empty text lies behind its end. -/
theorem pairLoop_empty (hstride : 0 < stride) (hlt : stride < 2 ^ 64 - 1) (hle : stride ≤ max)
    (h : s.length = 0) : pairLoop s step stride s.last max hstride 0 x = .error .outOfRange := by
  have hlast := last_of_length_eq_zero h
  rw [pairLoop_of_lt hstride (by omega) (by omega), if_pos (by omega), pairLoop,
    if_pos (by omega), substr_of_lt (by omega)]

/-- A loop has a result exactly on the texts that are not empty and fit the index. -/
theorem exists_pairLoop_iff (hstride : 2 ≤ stride) (hlt : stride < 2 ^ 64 - 1)
    (hmax : stride ∣ max - 1) (hpos : 1 < max) :
    (∃ y, pairLoop s step stride s.last max (Nat.zero_lt_of_lt hstride) 0 x = .ok y) ↔
      0 < s.length ∧ s.length ≤ max := by
  constructor
  · rintro ⟨y, hy⟩
    have hle : stride ≤ max - 1 := Nat.le_of_dvd (by omega) hmax
    refine ⟨?_, ?_⟩
    · by_contra h
      rw [pairLoop_empty _ hlt (by omega) (by omega)] at hy
      cases hy
    · by_contra h
      rw [pairLoop_overflow hstride hmax (by omega) (Nat.dvd_zero _) (Nat.zero_le _)
        (by omega)] at hy
      cases hy
  · rintro ⟨hne, hle⟩
    exact ⟨_, pairLoop_eq hstride hmax (Nat.dvd_zero _) hne hle⟩

end Loop

/-! ## What the helpers write -/

/-- The loop with its flags writes what the recursion over the text writes. -/
theorem str_foldl_abnfStep (s : Bytes) (x : AbnfOutput) :
    ((pairs 2 s).foldl abnfStep x).str = x.output ++ abnfStringLoop x.instring x.inhex s := by
  induction hn : s.length using Nat.strong_induction_on generalizing s x with
  | _ n ih =>
      cases s with
      | nil =>
          rw [pairs_eq_nil (by decide), List.foldl_nil, AbnfOutput.str, abnfStringLoop.eq_def]
      | cons c s =>
          cases s with
          | nil =>
              rw [pairs_eq_nil (s := [c]) (Nat.lt_succ_self 1), List.foldl_nil, AbnfOutput.str,
                abnfStringLoop.eq_def]
          | cons d s =>
              rw [pairs, List.foldl_cons, Nat.sub_self, List.drop_zero,
                ih s.length (by rw [List.length_cons, List.length_cons] at hn; omega) _ _ rfl,
                abnfStringLoop, abnfStep]
              by_cases h : 32 ≤ strtolHex [c, d] ∧ strtolHex [c, d] ≤ 126 ∧ strtolHex [c, d] ≠ 34
              · simp only [if_pos h, List.append_assoc, List.singleton_append]
              · simp only [if_neg h, List.append_assoc, List.cons_append, List.nil_append]

/-- On a text of the dissector the helper is the recursion over its characters. -/
theorem getABNFString_eq {s : StdString} (hpos : 0 < s.length) (hle : s.length ≤ intMax) :
    getABNFString s = .ok (abnfStringLoop false false s.chars) := by
  rw [getABNFString, pairLoop_eq (by decide) two_dvd (Nat.dvd_zero _) hpos hle]
  rw [Except.map]
  rw [List.drop_zero, str_foldl_abnfStep]
  rfl

/-- The digits of a value with a separator behind each byte but the last. -/
def separated (sep : UInt8) : Bytes → Bytes
  | [] => []
  | [c] => showHexByte c
  | c :: b => showHexByte c ++ sep :: separated sep b

theorem foldl_setw2 (sep : UInt8) (b out : Bytes) :
    (pairs 3 (separated sep b)).foldl setw2 out = out ++ hexDump b := by
  induction b generalizing out with
  | nil => rw [separated, pairs_eq_nil (by decide), List.foldl_nil, hexDump, List.flatMap_nil,
      List.append_nil]
  | cons c b ih =>
      have hdump : hexDump (c :: b) = showHexByte c ++ hexDump b := List.flatMap_cons
      cases b with
      | nil =>
          rw [separated, showHexByte, pairs, List.drop_nil, pairs_eq_nil (by decide), hdump]
          rfl
      | cons d b =>
          rw [separated, showHexByte, List.cons_append, List.cons_append, pairs,
            List.nil_append, List.drop_succ_cons, List.drop_zero, List.foldl_cons, ih, hdump,
            ← List.append_assoc]
          · rfl
          · rintro ⟨⟩

/-- The separators of a dump are left out. -/
theorem dataToHex_separated {s : StdString} {sep : UInt8} {b : Bytes}
    (hs : s.chars = separated sep b) (hpos : 0 < s.length) (hle : s.length ≤ intMax) :
    dataToHex s = .ok (hexDump b) := by
  rw [dataToHex, pairLoop_eq (by decide) three_dvd (Nat.dvd_zero _) hpos hle, List.drop_zero,
    hs, foldl_setw2, List.nil_append]

/-! ## Totality -/

/-- Both loops end without a call of `substr` behind the end of the string. -/
def Total (s : StdString) : Prop :=
  (∃ out, getABNFString s = .ok out) ∧ ∃ out, dataToHex s = .ok out

theorem exists_getABNFString_iff (s : StdString) :
    (∃ out, getABNFString s = .ok out) ↔ 0 < s.length ∧ s.length ≤ intMax := by
  rw [← @exists_pairLoop_iff _ s abnfStep 2 intMax {} (Nat.le_refl 2) (by decide) two_dvd
    one_lt_intMax, getABNFString]
  cases pairLoop s abnfStep 2 s.last intMax Nat.two_pos 0 {} with
  | error fault => simp [Except.map]
  | ok x => simp [Except.map]

/-- The helpers are total exactly on the texts with a character, of a length that the index
can hold. -/
theorem hexHelpers_total_iff (s : StdString) : Total s ↔ 0 < s.length ∧ s.length ≤ intMax := by
  rw [Total, exists_getABNFString_iff]
  exact and_iff_left_of_imp fun h =>
    (exists_pairLoop_iff (by decide) (by decide) three_dvd one_lt_intMax).mpr h

/-- The value of a field of no bytes ends both helpers. -/
theorem zero_length_out_of_range : hexDump [] = empty.chars ∧
    getABNFString empty = .error .outOfRange ∧ dataToHex empty = .error .outOfRange ∧
    ¬ Total empty := by
  have habnf : getABNFString empty = .error .outOfRange := by
    rw [getABNFString, pairLoop_empty _ (by decide) (by rw [intMax_eq]; decide) rfl]
    rfl
  refine ⟨rfl, habnf, pairLoop_empty _ (by decide) (by rw [intMax_eq]; decide) rfl, ?_⟩
  rintro ⟨⟨out, hout⟩, -⟩
  rw [habnf] at hout
  cases hout

end Util

end Stress

import Mathlib.Data.List.TakeWhile
import Mathlib.Data.Int.Log
import Mathlib.Algebra.Order.Floor.Ring
import Mathlib.Data.Rat.Floor

/-!
# Byte strings and the standard conversions

Byte strings with the conversions of the C and C++ libraries that programs use
on them: `atoi`, formatted stream extraction of a decimal `int`, of a pair of
hexadecimal digits and of single characters, decimal and hexadecimal printing,
and searching with erasing.  The conversions follow the documented behaviour in
the default locale.  A conversion that finds no digit gives `0`, and one whose
value does not fit is cut to the nearest value of its type.

Single precision numbers appear as the rationals they denote, with
`roundFloat` as the rounding to nearest.
-/

abbrev Bytes := List UInt8

/-- The bytes of an ASCII literal. -/
def ascii (s : String) : Bytes := s.toList.map fun c => c.toNat.toUInt8

/-- The largest value of a 32-bit `int`. -/
def intMax : Int := 2147483647

/-- The smallest value of a 32-bit `int`. -/
def intMin : Int := -2147483648

/-! ## Character classes -/

/-- White space of the default locale: blank, and tab to carriage return. -/
def isSpace (c : UInt8) : Bool := c == 32 || (9 ≤ c && c ≤ 13)

def isDigit (c : UInt8) : Bool := 48 ≤ c && c ≤ 57

def isLetter (c : UInt8) : Bool := (65 ≤ c && c ≤ 90) || (97 ≤ c && c ≤ 122)

/-- A printable ASCII character, blank included. -/
def isPrint (c : UInt8) : Bool := 32 ≤ c && c ≤ 126

/-- The value of a hexadecimal digit. -/
def hexDigit? (c : UInt8) : Option Nat :=
  if 48 ≤ c && c ≤ 57 then some (c.toNat - 48)
  else if 65 ≤ c && c ≤ 70 then some (c.toNat - 55)
  else if 97 ≤ c && c ≤ 102 then some (c.toNat - 87)
  else none

def isHexDigit (c : UInt8) : Bool := (hexDigit? c).isSome

/-! ## Decimal numerals -/

/-- The value of the digits at the head of a text. -/
def readNat (s : Bytes) : Nat :=
  (s.takeWhile isDigit).foldl (fun a c => 10 * a + (c.toNat - 48)) 0

/-- An optional sign and the digits after it. -/
def readSigned : Bytes → Int
  | 45 :: s => -(readNat s : Int)
  | 43 :: s => readNat s
  | s => readNat s

/-- Cut to the values between two bounds. -/
def clamp (lo hi x : Int) : Int := max lo (min hi x)

/-- `istream >> int`. -/
def extractInt (s : Bytes) : Int := clamp intMin intMax (readSigned (s.dropWhile isSpace))

/-- `atoi` of the C string in front of the first zero byte: the `long` value
that `strtol` gives, kept to 32 bits. -/
def atoi (s : Bytes) : Int :=
  (clamp (-(2 ^ 63)) (2 ^ 63 - 1)
    (readSigned ((s.takeWhile (· != 0)).dropWhile isSpace))).bmod (2 ^ 32)

def showNat (n : Nat) : Bytes := (Nat.toDigits 10 n).map fun c => c.toNat.toUInt8

/-- `ostream << int`. -/
def showInt (i : Int) : Bytes := if i < 0 then 45 :: showNat i.natAbs else showNat i.natAbs

/-! ## Hexadecimal -/

/-- The low byte of what `istream >> hex >> unsigned` gives on a text of at
most two characters.  It is 0 for blanks alone, where the extraction leaves the
number as it was. -/
def hexByte (s : Bytes) : UInt8 :=
  match s.dropWhile isSpace with
  | [c] => ((hexDigit? c).getD 0).toUInt8
  | [c, d] =>
      if c == 43 then ((hexDigit? d).getD 0).toUInt8
      else if c == 45 then -((hexDigit? d).getD 0).toUInt8
      else match hexDigit? c, hexDigit? d with
        | some m, some n => (16 * m + n).toUInt8
        | some m, none => m.toUInt8
        | none, _ => 0
  | _ => 0

/-- The text cut in pairs, each read as a byte.  A last single character is
read on its own. -/
def hexBytes : Bytes → Bytes
  | [] => []
  | [c] => [hexByte [c]]
  | c :: d :: s => hexByte [c, d] :: hexBytes s

theorem length_hexBytes : ∀ s : Bytes, (hexBytes s).length = (s.length + 1) / 2
  | [] => rfl
  | [c] => by
      rw [hexBytes, List.length_singleton, List.length_singleton]
  | c :: d :: s => by
      rw [hexBytes, List.length_cons, length_hexBytes s, List.length_cons, List.length_cons]
      omega

def showHexDigit (n : Nat) : UInt8 := if n < 10 then (48 + n).toUInt8 else (87 + n).toUInt8

/-- `printf("%02x")` of a byte. -/
def showHexByte (b : UInt8) : Bytes := [showHexDigit (b.toNat / 16), showHexDigit (b.toNat % 16)]

/-! ## Streams of characters -/

/-- `n` times `istream >> char` from a stream holding `s`.  The extraction
skips white space, and one that fails leaves the character as it was. -/
def extractChars : Nat → Bytes → UInt8 → Bytes
  | 0, _, _ => []
  | n + 1, s, c =>
      match s.dropWhile isSpace with
      | [] => c :: extractChars n [] c
      | d :: s' => d :: extractChars n s' d

/-! ## Searching and erasing -/

/-- Where `pat` occurs first, if anywhere. -/
def find (pat : Bytes) : Bytes → Option Nat
  | [] => if pat = [] then some 0 else none
  | c :: s => if pat.isPrefixOf (c :: s) then some 0 else (find pat s).map (· + 1)

/-- `string::erase(i, k)`. -/
def eraseAt (i k : Nat) (s : Bytes) : Bytes := s.take i ++ s.drop (i + k)

/-- Erase `k` characters at the first occurrence of `pat` while there is one,
at most `fuel` times. -/
def eraseWhile (pat : Bytes) (k : Nat) : Nat → Bytes → Bytes
  | 0, s => s
  | fuel + 1, s =>
      match find pat s with
      | none => s
      | some i => eraseWhile pat k fuel (eraseAt i k s)

/-- The same until no occurrence is left.  Each step shortens the text. -/
def eraseEach (pat : Bytes) (k : Nat) (s : Bytes) : Bytes := eraseWhile pat k s.length s

/-! ## Integers in memory -/

/-- A 32-bit two's complement integer. -/
def toInt32 (n : Nat) : Int := (n : Int).bmod (2 ^ 32)

theorem toInt32_def (n : Nat) : toInt32 n =
    if (n : Int) % 4294967296 < (4294967296 + 1) / 2 then (n : Int) % 4294967296
    else (n : Int) % 4294967296 - 4294967296 := Int.bmod_def n (2 ^ 32)

theorem toInt32_le (n : Nat) : toInt32 n ≤ n := by
  rw [toInt32_def]
  split <;> omega

theorem toInt32_eq {n : Nat} (h : (n : Int) ≤ intMax) : toInt32 n = n := by
  rw [intMax] at h
  rw [toInt32_def]
  split <;> omega

/-- The value of bytes, most significant first. -/
def bigEndian (b : Bytes) : Nat := b.foldl (fun a c => 256 * a + c.toNat) 0

/-- The `int` at the head of a buffer on a little-endian machine. -/
def intAt (b : Bytes) : Int := toInt32 (bigEndian (b.take 4).reverse)

/-- The four bytes of an `int` on a little-endian machine. -/
def bytesOfInt (i : Int) : Bytes :=
  let n := (i % 2 ^ 32).toNat
  [n.toUInt8, (n / 256).toUInt8, (n / 65536).toUInt8, (n / 16777216).toUInt8]

/-! ## Single precision -/

/-- The nearest integer, ties to even. -/
def roundEven (q : ℚ) : ℤ :=
  let r := q - ⌊q⌋
  if r < 1 / 2 then ⌊q⌋
  else if 1 / 2 < r then ⌊q⌋ + 1
  else if ⌊q⌋ % 2 = 0 then ⌊q⌋ else ⌊q⌋ + 1

/-- The `float` nearest to a rational in its normal range. -/
def roundFloat (q : ℚ) : ℚ :=
  if q = 0 then 0
  else
    let u : ℚ := 2 ^ (Int.log 2 |q| - 23)
    roundEven (q / u) * u

/-! ## Facts -/

/-- A fact about every byte can be checked byte by byte. -/
theorem forall_byte {p : UInt8 → Prop} (h : ∀ n : Fin 256, p (UInt8.ofNat n.val)) (c : UInt8) :
    p c := by
  have hc := h ⟨c.toNat, c.toNat_lt⟩
  rwa [UInt8.ofNat_toNat] at hc

theorem readNat_digits {s : Bytes} (h : ∀ c ∈ s, isDigit c = true) :
    readNat s = s.foldl (fun a c => 10 * a + (c.toNat - 48)) 0 := by
  rw [readNat, List.takeWhile_eq_self_iff.mpr h]

theorem not_isSpace_of_isDigit {c : UInt8} (h : isDigit c = true) : isSpace c = false := by
  simp only [isDigit, isSpace, Bool.and_eq_true, decide_eq_true_eq, UInt8.le_iff_toNat_le] at *
  simp only [Bool.or_eq_false_iff, beq_eq_false_iff_ne, ne_eq, Bool.and_eq_false_iff,
    decide_eq_false_iff_not, ← UInt8.toNat_inj]
  simp only [UInt8.reduceToNat] at *
  omega

theorem readSigned_digits {s : Bytes} (h : ∀ c ∈ s, isDigit c = true) :
    readSigned s = readNat s := by
  unfold readSigned
  split
  · exact absurd (h 45 (by simp)) (by decide)
  · exact absurd (h 43 (by simp)) (by decide)
  · rfl

theorem dropWhile_isSpace_digits {s : Bytes} (h : ∀ c ∈ s, isDigit c = true) :
    s.dropWhile isSpace = s := by
  cases s with
  | nil => rfl
  | cons c s =>
      rw [List.dropWhile_cons, not_isSpace_of_isDigit (h c (by simp))]
      rfl

/-- `atoi` of a decimal numeral that fits is its value. -/
theorem atoi_digits {s : Bytes} (h : ∀ c ∈ s, isDigit c = true) (hn : (readNat s : Int) ≤ intMax) :
    atoi s = readNat s := by
  have hz : s.takeWhile (· != 0) = s := by
    rw [List.takeWhile_eq_self_iff]
    intro c hc
    have := h c hc
    cases hc0 : c == 0 with
    | false => simp [bne, hc0]
    | true =>
        rw [beq_iff_eq] at hc0
        subst hc0
        exact absurd this (by decide)
  rw [atoi, hz, dropWhile_isSpace_digits h, readSigned_digits h]
  unfold intMax at hn
  rw [clamp, min_eq_right (by omega), max_eq_right (by omega)]
  rw [Int.bmod_eq_of_le (by omega) (by omega)]

theorem not_isSpace_of_isHexDigit {c : UInt8} (h : isHexDigit c = true) :
    isSpace c = false ∧ c ≠ 43 ∧ c ≠ 45 := by
  simp only [isHexDigit, hexDigit?, isSpace, Bool.and_eq_true, decide_eq_true_eq,
    UInt8.le_iff_toNat_le] at *
  simp only [Bool.or_eq_false_iff, beq_eq_false_iff_ne, ne_eq, Bool.and_eq_false_iff,
    decide_eq_false_iff_not, ← UInt8.toNat_inj]
  simp only [UInt8.reduceToNat] at *
  split at h
  · omega
  · split at h
    · omega
    · split at h
      · omega
      · cases h

theorem hexDigit?_showHexDigit : ∀ n < 16, hexDigit? (showHexDigit n) = some n := by
  decide

theorem isHexDigit_showHexDigit {n : Nat} (h : n < 16) : isHexDigit (showHexDigit n) = true := by
  rw [isHexDigit, hexDigit?_showHexDigit n h]
  rfl

theorem hexByte_digits {c d : UInt8} (hc : isHexDigit c = true) (hd : isHexDigit d = true) :
    hexByte [c, d] = (16 * (hexDigit? c).getD 0 + (hexDigit? d).getD 0).toUInt8 := by
  obtain ⟨hspace, hplus, hminus⟩ := not_isSpace_of_isHexDigit hc
  obtain ⟨m, hm⟩ := Option.isSome_iff_exists.mp hc
  obtain ⟨n, hn⟩ := Option.isSome_iff_exists.mp hd
  rw [hexByte, List.dropWhile_cons, hspace]
  simp [hplus, hminus, hm, hn]

/-- A count that `istream` reads is cut to the range of `int`. -/
theorem extractInt_natCast {s : Bytes} (hs : ∀ c ∈ s, isDigit c = true ∨ c = 42) :
    extractInt s = min (readNat s : Int) intMax := by
  have hspace : s.dropWhile isSpace = s := by
    cases s with
    | nil => rfl
    | cons c s =>
        have hc : isSpace c = false := by
          cases hs c (by simp) with
          | inl hd => exact not_isSpace_of_isDigit hd
          | inr hstar => rw [hstar]; decide
        rw [List.dropWhile_cons, hc]
        rfl
  have hsigned : readSigned s = readNat s := by
    unfold readSigned
    split
    · exact absurd (hs 45 (by simp)) (by decide)
    · exact absurd (hs 43 (by simp)) (by decide)
    · rfl
  rw [extractInt, hspace, hsigned, clamp, min_comm, max_eq_right]
  rw [intMin, intMax]
  omega

theorem showInt_natCast (n : Nat) : showInt n = showNat n := by
  simp [showInt]

/-- A text without one of the characters of a pattern has no occurrence of it. -/
theorem find_eq_none_of_mem {a : UInt8} {p : Bytes} (ha : a ∈ p) :
    ∀ {s : Bytes}, a ∉ s → find p s = none
  | [], _ => by
      have hne : p ≠ [] := List.ne_nil_of_mem ha
      rw [find, if_neg hne]
  | c :: s, h => by
      have hs : a ∉ s := fun hm => h (List.mem_cons_of_mem _ hm)
      have hp : p.isPrefixOf (c :: s) = false := by
        refine Bool.eq_false_iff.mpr fun hp => h ?_
        exact (List.isPrefixOf_iff_prefix.mp hp).subset ha
      rw [find, hp, find_eq_none_of_mem ha hs]
      rfl

theorem find_isSome_iff {p s : Bytes} : (find p s).isSome = true ↔ p <:+: s := by
  induction s with
  | nil =>
      rw [find, List.infix_nil]
      split
      · next h => exact ⟨fun _ => h, fun _ => rfl⟩
      · next h => exact ⟨fun hs => absurd hs Bool.false_ne_true, fun hp => absurd hp h⟩
  | cons c s ih =>
      rw [find, List.infix_cons_iff, ← List.isPrefixOf_iff_prefix, ← ih]
      cases p.isPrefixOf (c :: s) with
      | true => exact ⟨fun _ => .inl rfl, fun _ => rfl⟩
      | false =>
          simp only [Bool.false_eq_true, if_false, Option.isSome_map, false_or]

theorem eraseEach_of_find_none {pat : Bytes} {k : Nat} {s : Bytes} (h : find pat s = none) :
    eraseEach pat k s = s := by
  unfold eraseEach
  cases s with
  | nil => rfl
  | cons c s => simp only [List.length_cons, eraseWhile, h]

theorem toNat_toUInt8_of_lt {n : Nat} (h : n < 256) : n.toUInt8.toNat = n :=
  Nat.mod_eq_of_lt h

/-- A decimal numeral has digits only. -/
theorem isDigit_of_mem_showNat {n : Nat} {c : UInt8} (h : c ∈ showNat n) : isDigit c = true := by
  obtain ⟨d, hd, rfl⟩ := List.mem_map.mp h
  have hdigit := Nat.isDigit_of_mem_toDigits (by decide) (by decide) hd
  simp only [Char.isDigit, Bool.and_eq_true, decide_eq_true_eq, UInt32.le_iff_toNat_le] at hdigit
  have hd : d.toNat = d.val.toNat := rfl
  have hbounds : 48 ≤ d.toNat ∧ d.toNat ≤ 57 := by
    rw [hd]
    exact ⟨hdigit.1, hdigit.2⟩
  rw [isDigit, Bool.and_eq_true, decide_eq_true_eq, decide_eq_true_eq, UInt8.le_iff_toNat_le,
    UInt8.le_iff_toNat_le, toNat_toUInt8_of_lt (by omega)]
  exact hbounds

theorem showNat_ne_nil (n : Nat) : showNat n ≠ [] := by
  rw [showNat, Ne, List.map_eq_nil_iff]
  exact Nat.toDigits_ne_nil

/-- Reading a decimal numeral gives the number back. -/
theorem readNat_showNat (n : Nat) : readNat (showNat n) = n := by
  have hstep : ∀ (cs : List Char) (a : Nat), (∀ c ∈ cs, c.toNat < 256) →
      (cs.map fun c => c.toNat.toUInt8).foldl (fun a c => 10 * a + (c.toNat - 48)) a =
        Nat.ofDigitChars 10 cs a := by
    intro cs a hcs
    induction cs generalizing a with
    | nil => rw [List.map_nil, List.foldl_nil, Nat.ofDigitChars_nil]
    | cons c cs ih =>
        rw [List.forall_mem_cons] at hcs
        rw [List.map_cons, List.foldl_cons, ih _ hcs.2, Nat.ofDigitChars_cons,
          toNat_toUInt8_of_lt hcs.1]
        rfl
  have hsmall : ∀ c ∈ Nat.toDigits 10 n, c.toNat < 256 := by
    intro c hc
    have hdigit := Nat.isDigit_of_mem_toDigits (by decide) (by decide) hc
    simp only [Char.isDigit, Bool.and_eq_true, decide_eq_true_eq, UInt32.le_iff_toNat_le] at hdigit
    have hd : c.toNat = c.val.toNat := rfl
    have hle : c.val.toNat ≤ 57 := hdigit.2
    omega
  rw [readNat_digits fun c hc => isDigit_of_mem_showNat hc, showNat, hstep _ _ hsmall,
    Nat.ofDigitChars_ten_toDigits]

theorem showNat_injective {m n : Nat} (h : showNat m = showNat n) : m = n := by
  rw [← readNat_showNat m, h, readNat_showNat]

theorem isDigit_of_mem_showInt {i : Int} {c : UInt8} (h : c ∈ showInt i) :
    c = 45 ∨ isDigit c = true := by
  unfold showInt at h
  split at h
  · cases List.mem_cons.mp h with
    | inl heq => exact .inl heq
    | inr hmem => exact .inr (isDigit_of_mem_showNat hmem)
  · exact .inr (isDigit_of_mem_showNat h)

theorem showInt_injective {i j : Int} (h : showInt i = showInt j) : i = j := by
  have hsign : ∀ m n : Nat, 45 :: showNat m ≠ showNat n := fun m n heq =>
    absurd (isDigit_of_mem_showNat (n := n) (heq ▸ List.mem_cons_self)) (by decide)
  rw [showInt, showInt] at h
  split at h <;> split at h
  · have hn := showNat_injective (List.cons.inj h).2
    omega
  · exact absurd h (hsign _ _)
  · exact absurd h.symm (hsign _ _)
  · have hn := showNat_injective h
    omega

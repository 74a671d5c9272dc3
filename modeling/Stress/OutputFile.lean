import Stress.Library.Numeral
import Stress.Library.Text

/-!
# The names of the result files

`AbstractOutput::getFilename` (`src/output.cc`) puts the id and the run behind the prefix,
each filled up with zeros to twelve characters.  The loop that fills up compares an `int`
with the unsigned `12 - ss.str().size()`, which wraps around for a longer numeral: then
the index leaves its type, and there is no name.

The id is printed as a `long long int`.  From 2^63 on the numeral has a minus sign behind
the zeros, and a sign comes before every digit in the order of characters.
-/

namespace Stress

namespace AbstractOutput

/-! ## The name of a file -/

/-- `for (int i = 0; i < bound; i++) zeros += "0"`, `none` if the index leaves its type. -/
def padLoop (bound max i : Nat) (zeros : Bytes) : Option Bytes :=
  if i < bound then
    if i + 1 ≤ max then padLoop bound max (i + 1) (zeros ++ [48]) else none
  else
    some zeros
termination_by max - i

/-- `12 - ss.str().size()`, in 64 unsigned bits. -/
def room (numeral : Bytes) : Nat := (12 + 2 ^ 64 - numeral.length) % 2 ^ 64

/-- A numeral behind its zeros. -/
def pad (numeral : Bytes) : Option Bytes :=
  (padLoop (room numeral) 2147483647 0 []).map (· ++ numeral)

/-- `AbstractOutput::getFilename` for a prefix of the names. -/
def getFilename (filename : Bytes) (id : UInt64) (run : Int) : Option Bytes :=
  (pad (showInt run)).bind fun idrun =>
    (pad (showInt id.toInt64.toInt)).map fun idid =>
      filename ++ [45] ++ idid ++ [45] ++ idrun

/-- A test case and a run of it. -/
structure Key where
  id : UInt64
  run : Nat
  run_le : run ≤ 2147483647
deriving DecidableEq, Repr

namespace Key

/-- The order of the pairs. -/
def Before (p q : Key) : Prop := p.id < q.id ∨ p.id = q.id ∧ p.run < q.run

instance (p q : Key) : Decidable (p.Before q) := inferInstanceAs (Decidable (_ ∨ _))

/-- The name of the file of a test case and a run. -/
def name (filename : Bytes) (p : Key) : Option Bytes := getFilename filename p.id p.run

/-- The number that is printed for the id. -/
def shown (p : Key) : Int := p.id.toInt64.toInt

/-- The numeral of the id is not longer than twelve characters. -/
def Fits (p : Key) : Prop := -10 ^ 11 < p.shown ∧ p.shown < 10 ^ 12

instance (p : Key) : Decidable p.Fits := inferInstanceAs (Decidable (_ ∧ _))

/-- The number of digits of the id behind its sign. -/
def digits (p : Key) : Nat := (Nat.toDigits 10 p.shown.natAbs).length

end Key

/-- Both names come out, differ if the pairs do, and are in the order of the pairs. -/
def Sorted (filename : Bytes) (p q : Key) : Prop :=
  ∃ m n, p.name filename = some m ∧ q.name filename = some n ∧ (p ≠ q → m ≠ n) ∧
    (m < n ↔ p.Before q)

/-- The ids are equal, or both below 2^63, or both not, with different numbers of digits. -/
def Comparable (p q : Key) : Prop :=
  p.id = q.id ∨ (0 ≤ p.shown ∧ 0 ≤ q.shown) ∨
    (p.shown < 0 ∧ q.shown < 0 ∧ p.digits ≠ q.digits)

/-! ## The loop -/

theorem padLoop_eq {bound max i : Nat} {zeros : Bytes} (hi : i ≤ bound) (hbound : bound ≤ max) :
    padLoop bound max i zeros = some (zeros ++ List.replicate (bound - i) 48) := by
  induction hn : bound - i generalizing i zeros with
  | zero =>
      rw [padLoop, if_neg (by omega), List.replicate_zero, List.append_nil]
  | succ n ih =>
      rw [padLoop, if_pos (by omega), if_pos (by omega), ih (by omega) (by omega),
        List.append_assoc, List.replicate_succ]
      rfl

theorem padLoop_eq_none {bound max i : Nat} {zeros : Bytes} (hi : i ≤ max) (hbound : max < bound) :
    padLoop bound max i zeros = none := by
  induction hn : max - i generalizing i zeros with
  | zero => rw [padLoop, if_pos (by omega), if_neg (by omega)]
  | succ n ih =>
      rw [padLoop, if_pos (by omega), if_pos (by omega), ih (by omega) (by omega)]

theorem pad_eq {numeral : Bytes} (h : numeral.length ≤ 12) :
    pad numeral = some (List.replicate (12 - numeral.length) 48 ++ numeral) := by
  have hroom : room numeral = 12 - numeral.length := by
    rw [room]
    omega
  rw [pad, hroom, padLoop_eq (Nat.zero_le _) (by omega), Nat.sub_zero, Option.map_some,
    List.nil_append]

theorem pad_eq_none {numeral : Bytes} (h : 12 < numeral.length) (hlt : numeral.length ≤ 2 ^ 63) :
    pad numeral = none := by
  have hroom : 2147483647 < room numeral := by
    rw [room]
    omega
  rw [pad, padLoop_eq_none (Nat.zero_le _) hroom, Option.map_none]

/-! ## Numerals of twelve characters -/

/-- The character of a decimal digit. -/
abbrev decChar (c : Char) : UInt8 := c.toNat.toUInt8

theorem showNat_eq (n : Nat) : showNat n = Numeral.shortest 10 decChar n := rfl

theorem decChar_lt_iff : ∀ c < 10, ∀ d < 10,
    decChar c.digitChar < decChar d.digitChar ↔ c < d := by decide

theorem faithful_decChar : Numeral.Faithful 10 decChar := by
  have h : ∀ c < 10, ∀ d < 10, decChar c.digitChar = decChar d.digitChar → c = d := by decide
  exact h

theorem le_decChar : ∀ d < 10, 48 ≤ decChar d.digitChar := by decide

theorem length_showNat_le_iff {k n : Nat} (hk : 0 < k) :
    (showNat n).length ≤ k ↔ n < 10 ^ k :=
  Numeral.length_shortest_le_iff (by decide) hk

theorem length_showNat (n : Nat) : (showNat n).length = (Nat.toDigits 10 n).length :=
  List.length_map _

theorem lt_of_length_showNat_lt {m n : Nat} (h : (showNat m).length < (showNat n).length) :
    m < n := by
  have hpos : 0 < (showNat m).length := List.length_pos_iff.mpr (showNat_ne_nil m)
  have hm := (length_showNat_le_iff hpos).mp (Nat.le_refl _)
  have hn : ¬ n < 10 ^ (showNat m).length := fun hlt =>
    Nat.not_le.mpr h ((length_showNat_le_iff hpos).mpr hlt)
  omega

/-- The numeral of an id with its zeros. -/
def column (i : Int) : Bytes :=
  List.replicate (12 - (showInt i).length) 48 ++ showInt i

theorem column_of_nonneg {i : Int} (hi : 0 ≤ i) (hlt : i < 10 ^ 12) :
    column i = Numeral.fixed 10 decChar 12 i.natAbs := by
  rw [column, showInt, if_neg (by omega), showNat_eq]
  exact Numeral.replicate_append_shortest (by decide) (by omega) (by decide)

theorem column_of_neg {i : Int} (hi : i < 0) :
    column i = List.replicate (11 - (showNat i.natAbs).length) 48 ++ 45 :: showNat i.natAbs := by
  rw [column, showInt, if_pos hi, List.length_cons, Nat.add_sub_add_right 11 1]

theorem length_showInt_le_iff (i : Int) :
    (showInt i).length ≤ 12 ↔ -10 ^ 11 < i ∧ i < 10 ^ 12 := by
  rw [showInt]
  split
  · have hlength := length_showNat_le_iff (k := 11) (n := i.natAbs) (by decide)
    rw [List.length_cons]
    omega
  · rw [length_showNat_le_iff (by decide)]
    omega

theorem length_column {i : Int} (h : (showInt i).length ≤ 12) : (column i).length = 12 := by
  rw [column, List.length_append, List.length_replicate]
  omega

/-- A sign comes before a digit, if there are only zeros in front of it. -/
theorem replicate_sign_lt {k : Nat} {s ys : Bytes} (hlength : k < ys.length)
    (hys : ∀ c ∈ ys.take (k + 1), 48 ≤ c) : List.replicate k 48 ++ 45 :: s < ys := by
  induction k generalizing ys with
  | zero =>
      cases ys with
      | nil => cases hlength
      | cons y ys =>
          have hy : 48 ≤ y := hys y (List.mem_cons_self ..)
          have hlt : (45 : UInt8) < y := by
            rw [UInt8.le_iff_toNat_le] at hy
            rw [UInt8.lt_iff_toNat_lt]
            exact Nat.lt_of_lt_of_le (by decide) hy
          exact List.cons_lt_cons_iff.mpr (.inl hlt)
  | succ k ih =>
      cases ys with
      | nil => cases hlength
      | cons y ys =>
          rw [List.take_succ_cons, List.forall_mem_cons] at hys
          have hrest := ih (Nat.lt_of_succ_lt_succ hlength) hys.2
          rw [List.replicate_succ, List.cons_append, List.cons_lt_cons_iff]
          by_cases hy : y = 48
          · exact .inr ⟨hy.symm, hrest⟩
          · refine .inl ?_
            have hle := hys.1
            rw [UInt8.le_iff_toNat_le] at hle
            rw [UInt8.lt_iff_toNat_lt]
            exact Nat.lt_of_le_of_ne hle fun heq => hy (UInt8.toNat_inj.mp heq).symm

/-- Numbers that are not negative are in order. -/
theorem column_lt_iff_of_nonneg {i j : Int} (hi : 0 ≤ i) (hj : 0 ≤ j) (hilt : i < 10 ^ 12)
    (hjlt : j < 10 ^ 12) : column i < column j ↔ i < j := by
  rw [column_of_nonneg hi hilt, column_of_nonneg hj hjlt,
    Numeral.fixed_lt_iff (by decide) faithful_decChar decChar_lt_iff]
  omega

/-- A negative number comes before the others. -/
theorem column_lt_of_neg {i j : Int} (hi : i < 0) (hj : 0 ≤ j) (hjlt : j < 10 ^ 12) :
    column i < column j := by
  rw [column_of_neg hi, column_of_nonneg hj hjlt]
  refine replicate_sign_lt (by rw [Numeral.length_fixed]; omega) fun c hc => ?_
  exact Numeral.forall_mem_fixed le_decChar (by decide) c (List.mem_of_mem_take hc)

/-- Of two negative numbers the one with more digits comes first. -/
theorem column_lt_of_length_lt {i j : Int} (hi : i < 0) (hj : j < 0)
    (hle : (showNat i.natAbs).length ≤ 11)
    (hlt : (showNat j.natAbs).length < (showNat i.natAbs).length) : column i < column j := by
  rw [column_of_neg hi, column_of_neg hj]
  refine replicate_sign_lt ?_ fun c hc => ?_
  · rw [List.length_append, List.length_replicate]
    omega
  · rw [List.take_append_of_le_length (by rw [List.length_replicate]; omega)] at hc
    rw [List.eq_of_mem_replicate (List.mem_of_mem_take hc)]
    exact UInt8.le_refl 48

/-- Of two negative numbers with as many digits the greater one comes first. -/
theorem column_lt_iff_of_length_eq {i j : Int} (hi : i < 0) (hj : j < 0)
    (heq : (showNat i.natAbs).length = (showNat j.natAbs).length) :
    column i < column j ↔ j < i := by
  have hpos : 0 < (showNat i.natAbs).length := List.length_pos_iff.mpr (showNat_ne_nil _)
  have hilt := (length_showNat_le_iff hpos).mp (Nat.le_refl _)
  have hjlt := (length_showNat_le_iff (n := j.natAbs) hpos).mp (Nat.le_of_eq heq.symm)
  rw [column_of_neg hi, column_of_neg hj, ← heq, Numeral.append_lt_append_iff rfl]
  simp only [List.lt_irrefl, true_and, false_or, List.cons_lt_cons_iff, UInt8.lt_irrefl]
  rw [showNat_eq, showNat_eq, Numeral.shortest_eq_fixed (by decide) hpos rfl,
    Numeral.shortest_eq_fixed (by decide) hpos heq.symm,
    Numeral.fixed_lt_iff (by decide) faithful_decChar decChar_lt_iff, Nat.mod_eq_of_lt hilt,
    Nat.mod_eq_of_lt hjlt]
  omega

/-- Different numbers have columns of one order or the other. -/
theorem column_lt_or_lt {i j : Int} (hi : (showInt i).length ≤ 12) (hj : (showInt j).length ≤ 12)
    (hne : i ≠ j) : column i < column j ∨ column j < column i := by
  rw [length_showInt_le_iff] at hi hj
  have hlength : ∀ {k : Int}, -10 ^ 11 < k → k < 0 → (showNat k.natAbs).length ≤ 11 := by
    intro k hk hneg
    rw [length_showNat_le_iff (by decide)]
    omega
  by_cases hineg : i < 0
  · by_cases hjneg : j < 0
    · obtain h | h | h := Nat.lt_trichotomy (showNat i.natAbs).length (showNat j.natAbs).length
      · exact .inr (column_lt_of_length_lt hjneg hineg (hlength hj.1 hjneg) h)
      · rw [column_lt_iff_of_length_eq hineg hjneg h, column_lt_iff_of_length_eq hjneg hineg h.symm]
        omega
      · exact .inl (column_lt_of_length_lt hineg hjneg (hlength hi.1 hineg) h)
    · exact .inl (column_lt_of_neg hineg (by omega) hj.2)
  · by_cases hjneg : j < 0
    · exact .inr (column_lt_of_neg hjneg (by omega) hi.2)
    · rw [column_lt_iff_of_nonneg (by omega) (by omega) hi.2 hj.2,
        column_lt_iff_of_nonneg (by omega) (by omega) hj.2 hi.2]
      omega

theorem column_inj {i j : Int} (hi : (showInt i).length ≤ 12) (hj : (showInt j).length ≤ 12) :
    column i = column j ↔ i = j := by
  refine ⟨fun h => ?_, fun h => congrArg column h⟩
  by_contra hne
  cases column_lt_or_lt hi hj hne with
  | inl hlt => exact List.lt_irrefl _ (h ▸ hlt)
  | inr hlt => exact List.lt_irrefl _ (h ▸ hlt)

/-! ## The names -/

namespace Key

variable {filename : Bytes} {p q : Key}

/-- The number that is shown is the id below 2^63, and the id minus 2^64 from there on. -/
theorem shown_cases (p : Key) : p.id.toNat < 2 ^ 63 ∧ p.shown = p.id.toNat ∨
    2 ^ 63 ≤ p.id.toNat ∧ p.shown = p.id.toNat - 2 ^ 64 := by
  have hshown : p.shown = p.id.toBitVec.toInt := rfl
  have hid : p.id.toBitVec.toNat = p.id.toNat := rfl
  rw [hshown, BitVec.toInt_eq_toNat_cond, hid]
  split <;> omega

theorem shown_inj : p.shown = q.shown ↔ p.id = q.id := by
  refine ⟨fun h => ?_, fun h => by rw [shown, shown, h]⟩
  have hp := p.shown_cases
  have hq := q.shown_cases
  have hplt := p.id.toNat_lt
  have hqlt := q.id.toNat_lt
  exact UInt64.toNat_inj.mp (by omega)

theorem fits_iff (p : Key) : p.Fits ↔ (showInt p.shown).length ≤ 12 :=
  (length_showInt_le_iff p.shown).symm

theorem length_showInt_run (p : Key) : (showInt p.run).length ≤ 12 := by
  have hle := p.run_le
  rw [length_showInt_le_iff]
  omega

theorem name_eq (hp : p.Fits) : p.name filename =
    some (filename ++ [45] ++ column p.shown ++ [45] ++ column p.run) := by
  have hid : pad (showInt p.id.toInt64.toInt) = some (column p.shown) := pad_eq (p.fits_iff.mp hp)
  rw [name, getFilename, pad_eq p.length_showInt_run, Option.bind_some, hid, Option.map_some]
  rfl

/-- A longer numeral lets the loop run until the index leaves its type. -/
theorem name_eq_none (hp : ¬ p.Fits) : p.name filename = none := by
  have hlong : 12 < (showInt p.shown).length := Nat.not_le.mp fun h => hp (p.fits_iff.mpr h)
  have hshort : (showInt p.shown).length ≤ 2 ^ 63 := by
    have hlt := p.id.toNat_lt
    have hcases := p.shown_cases
    have hdigits : (showNat p.shown.natAbs).length ≤ 20 := by
      rw [length_showNat_le_iff (by decide)]
      omega
    rw [showInt]
    split
    · rw [List.length_cons]
      omega
    · omega
  have hid : pad (showInt p.id.toInt64.toInt) = none := pad_eq_none hlong hshort
  rw [name, getFilename, pad_eq p.length_showInt_run, Option.bind_some, hid, Option.map_none]

/-- Names are compared by the columns of the ids, and then by those of the runs. -/
theorem append_column_lt_iff (hp : p.Fits) (hq : q.Fits) :
    filename ++ [45] ++ column p.shown ++ [45] ++ column p.run <
        filename ++ [45] ++ column q.shown ++ [45] ++ column q.run ↔
      column p.shown < column q.shown ∨ p.id = q.id ∧ p.run < q.run := by
  have hlength : (column p.shown).length = (column q.shown).length := by
    rw [length_column (p.fits_iff.mp hp), length_column (q.fits_iff.mp hq)]
  have hrun : column p.run < column q.run ↔ p.run < q.run := by
    have hple := p.run_le
    have hqle := q.run_le
    rw [column_lt_iff_of_nonneg (by omega) (by omega) (by omega) (by omega)]
    exact Int.ofNat_lt
  have hruns : [45] ++ column p.run < [45] ++ column q.run ↔ p.run < q.run := by
    rw [Numeral.append_lt_append_iff rfl, hrun]
    simp [List.lt_irrefl]
  have hassoc : ∀ r : Key, filename ++ [45] ++ column r.shown ++ [45] ++ column r.run =
      (filename ++ [45]) ++ (column r.shown ++ ([45] ++ column r.run)) := fun r => by simp
  rw [hassoc, hassoc, Numeral.append_lt_append_iff rfl, Numeral.append_lt_append_iff hlength,
    hruns, column_inj (p.fits_iff.mp hp) (q.fits_iff.mp hq), shown_inj]
  simp [List.lt_irrefl]

/-- Different pairs have names of one order or the other. -/
theorem append_column_ne (hp : p.Fits) (hq : q.Fits) (hne : p ≠ q) :
    filename ++ [45] ++ column p.shown ++ [45] ++ column p.run ≠
      filename ++ [45] ++ column q.shown ++ [45] ++ column q.run := by
  intro heq
  have hpq := @append_column_lt_iff filename p q hp hq
  have hqp := @append_column_lt_iff filename q p hq hp
  rw [heq] at hpq hqp
  have hirrefl := List.lt_irrefl (filename ++ [45] ++ column q.shown ++ [45] ++ column q.run)
  by_cases hid : p.id = q.id
  · have hrun : p.run ≠ q.run := by
      intro hrun
      cases p
      cases q
      cases hid
      cases hrun
      exact hne rfl
    cases Nat.lt_or_gt_of_ne hrun with
    | inl hlt => exact hirrefl (hpq.mpr (.inr ⟨hid, hlt⟩))
    | inr hlt => exact hirrefl (hqp.mpr (.inr ⟨hid.symm, hlt⟩))
  · have hshown : p.shown ≠ q.shown := fun h => hid (shown_inj.mp h)
    cases column_lt_or_lt (p.fits_iff.mp hp) (q.fits_iff.mp hq) hshown with
    | inl hlt => exact hirrefl (hpq.mpr (.inl hlt))
    | inr hlt => exact hirrefl (hqp.mpr (.inl hlt))

/-- The columns of two ids are in the order of the ids exactly if these are comparable. -/
theorem column_shown_lt_iff (hp : p.Fits) (hq : q.Fits) (hne : p.id ≠ q.id) :
    (column p.shown < column q.shown ↔ p.id < q.id) ↔ Comparable p q := by
  have hpcases := p.shown_cases
  have hqcases := q.shown_cases
  have hplt := p.id.toNat_lt
  have hqlt := q.id.toNat_lt
  have hnat : p.id.toNat ≠ q.id.toNat := fun h => hne (UInt64.toNat_inj.mp h)
  have hlength : ∀ {r : Key}, r.Fits → r.shown < 0 → (showNat r.shown.natAbs).length ≤ 11 := by
    intro r hr hneg
    rw [length_showNat_le_iff (by decide)]
    have := hr.1
    omega
  rw [Comparable, UInt64.lt_iff_toNat_lt, digits, digits, ← length_showNat, ← length_showNat]
  by_cases hpneg : p.shown < 0
  · by_cases hqneg : q.shown < 0
    · obtain h | h | h :=
        Nat.lt_trichotomy (showNat p.shown.natAbs).length (showNat q.shown.natAbs).length
      · have hcol := List.lt_asymm (column_lt_of_length_lt hqneg hpneg (hlength hq hqneg) h)
        have hnum := lt_of_length_showNat_lt h
        refine iff_of_true (iff_of_false hcol (by omega)) (.inr (.inr ⟨hpneg, hqneg, by omega⟩))
      · rw [column_lt_iff_of_length_eq hpneg hqneg h]
        refine iff_of_false (by omega) ?_
        rintro (hid | ⟨hle, -⟩ | ⟨-, -, hdigits⟩)
        · exact hne hid
        · omega
        · exact hdigits h
      · have hcol := column_lt_of_length_lt hpneg hqneg (hlength hp hpneg) h
        have hnum := lt_of_length_showNat_lt h
        refine iff_of_true (iff_of_true hcol (by omega)) (.inr (.inr ⟨hpneg, hqneg, by omega⟩))
    · have hcol := column_lt_of_neg hpneg (Int.not_lt.mp hqneg) hq.2
      refine iff_of_false (fun h => ?_) ?_
      · have hlt := h.mp hcol
        omega
      · rintro (hid | ⟨hle, -⟩ | ⟨-, hneg, -⟩)
        · exact hne hid
        · omega
        · omega
  · by_cases hqneg : q.shown < 0
    · have hcol := List.lt_asymm (column_lt_of_neg hqneg (Int.not_lt.mp hpneg) hp.2)
      refine iff_of_false (fun h => hcol (h.mpr (by omega))) ?_
      rintro (hid | ⟨-, hle⟩ | ⟨hneg, -, -⟩)
      · exact hne hid
      · omega
      · omega
    · rw [column_lt_iff_of_nonneg (by omega) (by omega) hp.2 hq.2]
      exact iff_of_true (by omega) (.inr (.inl ⟨by omega, by omega⟩))

end Key

/-- The names of two results are there, apart and in order exactly if both ids fit into their
columns and are comparable. -/
theorem result_names_sorted_iff (filename : Bytes) (p q : Key) :
    Sorted filename p q ↔ p.Fits ∧ q.Fits ∧ Comparable p q := by
  constructor
  · rintro ⟨m, n, hm, hn, -, hlt⟩
    have hp : p.Fits := by
      by_contra h
      rw [Key.name_eq_none h] at hm
      cases hm
    have hq : q.Fits := by
      by_contra h
      rw [Key.name_eq_none h] at hn
      cases hn
    refine ⟨hp, hq, ?_⟩
    by_cases hid : p.id = q.id
    · exact .inl hid
    · rw [Key.name_eq hp] at hm
      rw [Key.name_eq hq] at hn
      rw [← Option.some.inj hm, ← Option.some.inj hn, Key.append_column_lt_iff hp hq,
        Key.Before] at hlt
      simp only [hid, false_and, or_false] at hlt
      exact (Key.column_shown_lt_iff hp hq hid).mp hlt
  · rintro ⟨hp, hq, hcomparable⟩
    refine ⟨_, _, Key.name_eq hp, Key.name_eq hq, Key.append_column_ne hp hq, ?_⟩
    rw [Key.append_column_lt_iff hp hq, Key.Before]
    by_cases hid : p.id = q.id
    · have hirrefl : ¬ q.id < q.id := UInt64.lt_irrefl q.id
      rw [Key.shown, Key.shown, hid]
      simp [List.lt_irrefl, hirrefl]
    · simp only [hid, false_and, or_false]
      exact (Key.column_shown_lt_iff hp hq hid).mpr hcomparable

/-- A test case whose id has thirteen digits. -/
def longId : Key := ⟨1000000000000, 0, by decide⟩

/-- Its name never ends. -/
theorem longId_no_name : longId.name (ascii "result") = none ∧
    ¬ Sorted (ascii "result") longId longId := by
  have hname : longId.name (ascii "result") = none := Key.name_eq_none (by decide)
  refine ⟨hname, ?_⟩
  rintro ⟨m, n, hm, -⟩
  rw [hname] at hm
  cases hm

end AbstractOutput

end Stress

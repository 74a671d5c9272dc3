import Mathlib.Data.Nat.Basic
import Mathlib.Tactic.NormNum

/-!
# Numerals of a fixed width

The last digits of a number to some base, most significant first, written with any
characters.  Zeros in front bring the numeral of a number to a fixed width, if it is not
longer (`replicate_append_shortest`).

Numerals of one width are equal, and are ordered from the first digit on, as the numbers
are that they stand for.
-/

namespace Numeral

/-! ## Order from the first element on -/

theorem append_lt_append_iff {α : Type*} [LT α] {us vs : List α} :
    ∀ {xs ys : List α}, xs.length = ys.length →
      (xs ++ us < ys ++ vs ↔ xs < ys ∨ xs = ys ∧ us < vs)
  | [], [], _ => by simp
  | [], _ :: _, h => by cases h
  | _ :: _, [], h => by cases h
  | x :: xs, y :: ys, h => by
      have ih := @append_lt_append_iff _ _ us vs xs ys (Nat.succ.inj h)
      rw [List.cons_append, List.cons_append, List.cons_lt_cons_iff, List.cons_lt_cons_iff, ih,
        List.cons.injEq]
      tauto

/-- A quotient decides before a remainder does. -/
theorem mul_add_lt_iff {b p q r s : Nat} (hr : r < b) (hs : s < b) :
    r + b * p < s + b * q ↔ p < q ∨ p = q ∧ r < s := by
  obtain h | rfl | h := Nat.lt_trichotomy p q
  · have hle : b * (p + 1) ≤ b * q := Nat.mul_le_mul_left b h
    rw [Nat.mul_add, Nat.mul_one] at hle
    omega
  · omega
  · have hle : b * (q + 1) ≤ b * p := Nat.mul_le_mul_left b h
    rw [Nat.mul_add, Nat.mul_one] at hle
    omega

/-! ## The numerals -/

section

variable {α : Type*} {b k m n : Nat} {char : Char → α}

/-- The numeral without zeros in front. -/
def shortest (b : Nat) (char : Char → α) (n : Nat) : List α := (Nat.toDigits b n).map char

/-- The last `k` digits. -/
def fixed (b : Nat) (char : Char → α) : Nat → Nat → List α
  | 0, _ => []
  | k + 1, n => fixed b char k (n / b) ++ [char (n % b).digitChar]

@[simp] theorem length_fixed (b : Nat) (char : Char → α) (k n : Nat) :
    (fixed b char k n).length = k := by
  induction k generalizing n with
  | zero => rfl
  | succ k ih => rw [fixed, List.length_append, ih, List.length_singleton]

theorem fixed_of_zero (b : Nat) (char : Char → α) (k : Nat) :
    fixed b char k 0 = List.replicate k (char '0') := by
  induction k with
  | zero => rfl
  | succ k ih =>
      rw [fixed, Nat.zero_div, ih, Nat.zero_mod, List.replicate_succ']
      rfl

theorem forall_mem_fixed {p : α → Prop} (hp : ∀ d < b, p (char d.digitChar)) (hb : 0 < b) :
    ∀ c ∈ fixed b char k n, p c := by
  induction k generalizing n with
  | zero => exact List.forall_mem_nil p
  | succ k ih =>
      intro c hc
      rw [fixed, List.mem_append, List.mem_singleton] at hc
      cases hc with
      | inl h => exact ih c h
      | inr h => exact h ▸ hp _ (Nat.mod_lt n hb)

theorem length_shortest_le_iff (hb : 1 < b) (hk : 0 < k) :
    (shortest b char n).length ≤ k ↔ n < b ^ k := by
  rw [shortest, List.length_map]
  exact Nat.length_toDigits_le_iff hb hk

/-- The zeros in front of a numeral make up its first digits. -/
theorem replicate_append_shortest (hb : 1 < b) (h : n < b ^ k) (hk : 0 < k) :
    List.replicate (k - (shortest b char n).length) (char '0') ++ shortest b char n =
      fixed b char k n := by
  induction k generalizing n with
  | zero => exact absurd hk (Nat.lt_irrefl 0)
  | succ k ih =>
      rw [shortest, Nat.toDigits_eq_if hb]
      by_cases hn : n < b
      · rw [if_pos hn, fixed, Nat.div_eq_of_lt hn, Nat.mod_eq_of_lt hn, fixed_of_zero]
        rfl
      · have hk' : 0 < k := by
          refine Nat.pos_of_ne_zero fun hzero => hn ?_
          rw [hzero, Nat.zero_add, Nat.pow_one] at h
          exact h
        have hdiv : n / b < b ^ k := by
          rw [Nat.div_lt_iff_lt_mul (by omega), ← Nat.pow_succ]
          exact h
        rw [if_neg hn, fixed, ← ih hdiv hk', shortest, List.map_append, List.length_append,
          List.append_assoc, List.map_singleton, List.length_singleton, Nat.add_sub_add_right]

/-- A numeral as long as the width is the numeral of the width. -/
theorem shortest_eq_fixed (hb : 1 < b) (hk : 0 < k) (h : (shortest b char n).length = k) :
    shortest b char n = fixed b char k n := by
  have hlt : n < b ^ k := (length_shortest_le_iff hb hk).mp (Nat.le_of_eq h)
  rw [← replicate_append_shortest hb hlt hk, h, Nat.sub_self]
  rfl

/-- Different digits have different characters. -/
def Faithful (b : Nat) (char : Char → α) : Prop :=
  ∀ c < b, ∀ d < b, char c.digitChar = char d.digitChar → c = d

theorem fixed_inj (hb : 0 < b) (hchar : Faithful b char) :
    fixed b char k m = fixed b char k n ↔ m % b ^ k = n % b ^ k := by
  induction k generalizing m n with
  | zero => simp [fixed, Nat.mod_one]
  | succ k ih =>
      have hm := Nat.mod_lt m hb
      have hn := Nat.mod_lt n hb
      rw [fixed, fixed, Nat.pow_succ', Nat.mod_mul, Nat.mod_mul]
      constructor
      · intro h
        obtain ⟨hinit, hlast⟩ := List.append_inj h (by rw [length_fixed, length_fixed])
        rw [ih.mp hinit, hchar _ hm _ hn (List.singleton_inj.mp hlast)]
      · intro h
        have hmod : m % b = n % b := by
          have heq := congrArg (· % b) h
          simpa [Nat.add_mul_mod_self_left] using heq
        have hdiv : m / b % b ^ k = n / b % b ^ k := by
          rw [hmod] at h
          exact Nat.eq_of_mul_eq_mul_left hb (Nat.add_left_cancel h)
        rw [ih.mpr hdiv, hmod]

/-- Numerals of one width are ordered as the numbers of their digits. -/
theorem fixed_lt_iff [LT α] (hb : 0 < b) (hchar : Faithful b char)
    (hlt : ∀ c < b, ∀ d < b, char c.digitChar < char d.digitChar ↔ c < d) :
    fixed b char k m < fixed b char k n ↔ m % b ^ k < n % b ^ k := by
  induction k generalizing m n with
  | zero => simp [fixed, Nat.mod_one]
  | succ k ih =>
      have hm := Nat.mod_lt m hb
      have hn := Nat.mod_lt n hb
      rw [fixed, fixed, append_lt_append_iff (by rw [length_fixed, length_fixed]), ih,
        fixed_inj hb hchar, Nat.pow_succ', Nat.mod_mul, Nat.mod_mul, mul_add_lt_iff hm hn,
        List.cons_lt_cons_iff, hlt _ hm _ hn]
      simp

end

end Numeral

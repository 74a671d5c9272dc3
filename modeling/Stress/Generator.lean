import Mathlib.Data.Nat.Bitwise
import Mathlib.Data.List.Nodup

/-!
# Test case generators

The two generators of `lib/ts-generator`.  A generator hands out injection ids,
and decides which of them a test case enables.  Ids are `uint64_t`, and
`enable` takes `int` parameters, so a call keeps the low 32 bits of both.

`ExpTSGenerator` gives one bit to each injector and saturates at its
`UINT64_MAX`, which the header redefines to `2 ^ 63`.  `SeqTSGenerator` counts.
-/

namespace Stress

inductive TSGenerator where
  | exp
  | seq
deriving DecidableEq, Repr

namespace TSGenerator

/-- The `UINT64_MAX` of `ts-generator.h`. -/
def uint64Max : UInt64 := 9223372036854775808

/-- `enable(int id, int injector_id)` on `uint64_t` arguments.  An `int` is kept
as its 32 bits. -/
def enable (g : TSGenerator) (id injectorId : UInt64) : Bool :=
  match g with
  | .exp => id.toUInt32 &&& injectorId.toUInt32 != 0
  | .seq => id.toUInt32 == injectorId.toUInt32

/-- `getNextInjectionId(uint64_t&)`: the id returned and the updated reference. -/
def getNextInjectionId (g : TSGenerator) (nextInjectionId : UInt64) : UInt64 × UInt64 :=
  match g with
  | .exp =>
      if nextInjectionId = uint64Max then (nextInjectionId, nextInjectionId)
      else (nextInjectionId, nextInjectionId <<< 1)
  | .seq => (nextInjectionId, nextInjectionId + 1)

/-- `next_injection_id` after a number of calls, from its initial value `1`. -/
def nextInjectionId (g : TSGenerator) : Nat → UInt64
  | 0 => 1
  | j + 1 => (g.getNextInjectionId (g.nextInjectionId j)).2

/-- The id the `j`-th call returns, counted from `0`. -/
def injectionId (g : TSGenerator) (j : Nat) : UInt64 :=
  (g.getNextInjectionId (g.nextInjectionId j)).1

/-! ## The ids -/

theorem injectionId_eq (g : TSGenerator) (j : Nat) : g.injectionId j = g.nextInjectionId j := by
  cases g with
  | exp =>
      simp only [injectionId, getNextInjectionId]
      split <;> rfl
  | seq => rfl

theorem nextInjectionId_exp (j : Nat) : (exp.nextInjectionId j).toNat = 2 ^ min j 63 := by
  induction j with
  | zero => rfl
  | succ j ih =>
      rw [nextInjectionId, getNextInjectionId]
      by_cases h : j < 63
      · have hne : exp.nextInjectionId j ≠ uint64Max := by
          intro he
          have hp : 2 ^ min j 63 = 2 ^ 63 := by rw [← ih, he]; rfl
          have := Nat.pow_right_injective (le_refl 2) hp
          omega
        rw [if_neg hne]
        have hlt : 2 ^ j * 2 < 2 ^ 64 := by
          rw [← Nat.pow_succ]
          exact Nat.pow_lt_pow_right (by omega) (by omega)
        rw [min_eq_left (by omega)] at ih
        rw [UInt64.toNat_shiftLeft, ih, min_eq_left (by omega)]
        simp only [UInt64.toNat_one]
        rw [Nat.shiftLeft_eq]
        simpa [Nat.pow_succ] using Nat.mod_eq_of_lt hlt
      · have he : exp.nextInjectionId j = uint64Max := by
          rw [← UInt64.toNat_inj, ih, min_eq_right (by omega)]
          rfl
        rw [if_pos he, ih, min_eq_right (by omega), min_eq_right (by omega)]

theorem nextInjectionId_seq (j : Nat) : (seq.nextInjectionId j).toNat = (j + 1) % 2 ^ 64 := by
  induction j with
  | zero => rfl
  | succ j ih =>
      rw [nextInjectionId, getNextInjectionId]
      simp only [UInt64.toNat_add, ih, UInt64.toNat_one]
      omega

/-- The ids a generator hands out before it repeats one. -/
def capacity : TSGenerator → Nat
  | .exp => 64
  | .seq => 2 ^ 64

theorem injectionId_injective (g : TSGenerator) {i j : Nat} (hi : i < g.capacity)
    (hj : j < g.capacity) (h : g.injectionId i = g.injectionId j) : i = j := by
  rw [injectionId_eq, injectionId_eq, ← UInt64.toNat_inj] at h
  cases g with
  | exp =>
      rw [nextInjectionId_exp, nextInjectionId_exp] at h
      have := Nat.pow_right_injective (le_refl 2) h
      simp only [capacity] at hi hj
      omega
  | seq =>
      rw [nextInjectionId_seq, nextInjectionId_seq] at h
      simp only [capacity] at hi hj
      omega

/-! ## The exponential generator -/

/-- The low 32 bits of the `j`-th id hold one bit for `j < 32` and none after. -/
theorem enable_exp (u : UInt64) (j : Nat) :
    exp.enable u (exp.injectionId j) = (decide (j < 32) && u.toNat.testBit j) := by
  have hid : (exp.injectionId j).toUInt32.toNat = if j < 32 then 2 ^ j else 0 := by
    rw [injectionId_eq, UInt64.toNat_toUInt32, nextInjectionId_exp]
    split
    · next h =>
        rw [min_eq_left (by omega)]
        exact Nat.mod_eq_of_lt (Nat.pow_lt_pow_right (by omega) h)
    · next h =>
        obtain ⟨m, hm⟩ : ∃ m, min j 63 = 32 + m := ⟨min j 63 - 32, by omega⟩
        rw [hm, Nat.pow_add]
        exact Nat.mul_mod_right _ _
  rw [Bool.eq_iff_iff, enable]
  simp only [bne_iff_ne, ne_eq, ← UInt32.toNat_inj, UInt32.toNat_and, hid, UInt64.toNat_toUInt32,
    Bool.and_eq_true, decide_eq_true_eq]
  by_cases h : j < 32
  · rw [if_pos h, Nat.and_two_pow, Nat.testBit_mod_two_pow]
    cases hb : u.toNat.testBit j <;> simp [h]
  · simp [h]

/-- Every set of the first `k` injectors has exactly one test case that enables
them and no others.  The test cases are the ids below the bound `main` fixes
once `k` injectors are registered. -/
def EnablesEverySet (k : Nat) : Prop :=
  ∀ S : Fin k → Bool, ∃! u : UInt64, u < (exp.nextInjectionId k) ∧
    ∀ i : Fin k, exp.enable u (exp.injectionId i) = S i

theorem enablesEverySet_of_le {k : Nat} (h : k ≤ 32) : EnablesEverySet k := by
  intro S
  have hbound : (exp.nextInjectionId k).toNat = 2 ^ k := by
    rw [nextInjectionId_exp, min_eq_left (by omega)]
  have hpow : 2 ^ k < 2 ^ 64 := Nat.pow_lt_pow_right (by omega) (by omega)
  have hbits : ∀ (u : UInt64) (i : Fin k),
      exp.enable u (exp.injectionId i) = u.toNat.testBit i := by
    intro u i
    have hi : (i : Nat) < 32 := by omega
    simp [enable_exp, hi]
  refine ⟨UInt64.ofNat (Nat.ofBits S), ⟨?_, ?_⟩, ?_⟩
  · rw [UInt64.lt_iff_toNat_lt, hbound, UInt64.toNat_ofNat',
      Nat.mod_eq_of_lt ((Nat.ofBits_lt_two_pow S).trans hpow)]
    exact Nat.ofBits_lt_two_pow S
  · intro i
    rw [hbits, UInt64.toNat_ofNat', Nat.mod_eq_of_lt ((Nat.ofBits_lt_two_pow S).trans hpow)]
    exact Nat.testBit_ofBits_lt S i i.isLt
  · rintro u ⟨hlt, hu⟩
    rw [UInt64.lt_iff_toNat_lt, hbound] at hlt
    rw [← UInt64.toNat_inj, UInt64.toNat_ofNat',
      Nat.mod_eq_of_lt ((Nat.ofBits_lt_two_pow S).trans hpow)]
    apply Nat.eq_of_testBit_eq
    intro i
    by_cases hi : i < k
    · rw [Nat.testBit_ofBits_lt S i hi, ← hbits u ⟨i, hi⟩, hu ⟨i, hi⟩]
    · rw [Nat.testBit_ofBits_ge S i (by omega)]
      exact Nat.testBit_lt_two_pow (lt_of_lt_of_le hlt (Nat.pow_le_pow_right (by omega) (by omega)))

/-- No test case enables the injector past the 32 bits of an `int`. -/
theorem not_enablesEverySet {k : Nat} (h : 32 < k) : ¬ EnablesEverySet k := by
  intro hall
  obtain ⟨u, ⟨_, hu⟩, _⟩ := hall (fun i => decide ((i : Nat) = 32))
  have := hu ⟨32, h⟩
  rw [enable_exp] at this
  simp at this

/-- The exponential generator keeps its documented maximum of 64 faults apart,
and serves every set of them exactly up to 32. -/
theorem exp_serves_every_set_iff (k : Nat) (h : k ≤ 64) :
    ((List.range k).map exp.injectionId).Nodup ∧ (EnablesEverySet k ↔ k ≤ 32) := by
  refine ⟨?_, ?_, enablesEverySet_of_le⟩
  · refine List.Nodup.map_on ?_ List.nodup_range
    intro i hi j hj he
    rw [List.mem_range] at hi hj
    exact injectionId_injective exp (by simp only [capacity]; omega)
      (by simp only [capacity]; omega) he
  · intro hall
    by_contra hk
    exact not_enablesEverySet (by omega) hall

theorem exp_serves_every_set_iff_at_maximum :
    64 ≤ 64 ∧ ((List.range 64).map exp.injectionId).Nodup ∧ (EnablesEverySet 64 ↔ 64 ≤ 32) :=
  ⟨le_refl 64, exp_serves_every_set_iff 64 (le_refl 64)⟩

/-- With 33 injectors the set that holds only the last one has no test case. -/
theorem exp_misses_a_set_of_33 : ¬ EnablesEverySet 33 := not_enablesEverySet (by omega)

/-! ## The sequential generator -/

theorem enable_seq (u : UInt64) (j : Nat) (hu : u.toNat < 2 ^ 32) (hj : j + 1 < 2 ^ 32) :
    seq.enable u (seq.injectionId j) = decide (u.toNat = j + 1) := by
  rw [enable, injectionId_eq, Bool.eq_iff_iff, beq_iff_eq, decide_eq_true_eq, ← UInt32.toNat_inj,
    UInt64.toNat_toUInt32, UInt64.toNat_toUInt32, nextInjectionId_seq]
  omega

/-! ## Ids that a test case can enable -/

/-- An id that some test case enables was issued once. -/
theorem injectionId_injective_of_enable {g : TSGenerator} {u : UInt64} {i j : Nat}
    (hi : i < 2 ^ 64) (hj : j < 2 ^ 64) (hu : g.enable u (g.injectionId j) = true)
    (h : g.injectionId i = g.injectionId j) : i = j := by
  cases g with
  | exp =>
      rw [enable_exp, Bool.and_eq_true, decide_eq_true_eq] at hu
      rw [injectionId_eq, injectionId_eq, ← UInt64.toNat_inj, nextInjectionId_exp,
        nextInjectionId_exp] at h
      have := Nat.pow_right_injective (le_refl 2) h
      omega
  | seq => exact injectionId_injective seq hi hj h

end TSGenerator

end Stress

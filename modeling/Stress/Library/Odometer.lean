import Mathlib.Algebra.BigOperators.Group.List.Basic
import Mathlib.Algebra.Order.BigOperators.Group.List
import Mathlib.Data.List.Forall2
import Mathlib.Data.List.GetD
import Mathlib.Data.List.Nodup
import Mathlib.Logic.Function.Iterate

/-!
# Odometers

A row of wheels.  A wheel with bound `n` shows the digits `1, …, n - 1` and
starts over at `1` with a carry into the next wheel.  The first wheel turns at
every tick.

The value of a row of digits is its rank in the order of the ticks.  A tick adds
one to it modulo the number of rows (`value_tick`), so that many ticks from all
ones show every row of digits exactly once (`mem_readings`, `readings_nodup`).
-/

namespace Odometer

/-- Turn the first wheel, and carry as long as a wheel starts over. -/
def tick : List Nat → List Nat → List Nat
  | n :: ns, d :: ds => if n ≤ d + 1 then 1 :: tick ns ds else (d + 1) :: ds
  | _, ds => ds

/-- The digits fit the wheels. -/
def Shows : List Nat → List Nat → Prop := List.Forall₂ fun n d => 1 ≤ d ∧ d < n

/-- The number of rows of digits. -/
def total (ns : List Nat) : Nat := (ns.map (· - 1)).prod

/-- The rank of a row of digits. -/
def value : List Nat → List Nat → Nat
  | n :: ns, d :: ds => (d - 1) + (n - 1) * value ns ds
  | _, _ => 0

/-- The digits after `m` ticks from all ones. -/
def reading (ns : List Nat) (m : Nat) : List Nat := (tick ns)^[m] (List.replicate ns.length 1)

theorem reading_succ (ns : List Nat) (m : Nat) : reading ns (m + 1) = tick ns (reading ns m) :=
  Function.iterate_succ_apply' _ _ _

@[simp] theorem total_nil : total [] = 1 := rfl

@[simp] theorem total_cons (n : Nat) (ns : List Nat) : total (n :: ns) = (n - 1) * total ns := rfl

theorem Shows.tick {ns ds : List Nat} (h : Shows ns ds) : Shows ns (tick ns ds) := by
  induction h with
  | nil => exact .nil
  | @cons n d ns ds hd hds ih =>
      rw [Odometer.tick]
      split
      · exact .cons ⟨le_refl 1, by omega⟩ ih
      · exact .cons ⟨by omega, by omega⟩ hds

theorem Shows.value_lt {ns ds : List Nat} (h : Shows ns ds) : value ns ds < total ns := by
  induction h with
  | nil => simp [value]
  | @cons n d ns ds hd hds ih =>
      rw [value, total_cons]
      calc (d - 1) + (n - 1) * value ns ds
          < (n - 1) + (n - 1) * value ns ds := by omega
        _ = (n - 1) * (value ns ds + 1) := by rw [Nat.mul_succ, Nat.add_comm]
        _ ≤ (n - 1) * total ns := Nat.mul_le_mul_left _ ih

/-- A tick adds one to the rank, and starts over after the last row. -/
theorem value_tick {ns ds : List Nat} (h : Shows ns ds) :
    value ns (tick ns ds) = (value ns ds + 1) % total ns := by
  induction h with
  | nil => rfl
  | @cons n d ns ds hd hds ih =>
      have hlt := Shows.value_lt hds
      rw [tick, total_cons]
      split
      · next hcarry =>
          have hd' : d - 1 + (n - 1) * value ns ds + 1 = (n - 1) * (value ns ds + 1) := by
            rw [Nat.mul_succ]; omega
          rw [value, value, ih, hd', Nat.mul_mod_mul_left]
          omega
      · next hcarry =>
          rw [value, value, Nat.mod_eq_of_lt]
          · omega
          · calc d - 1 + (n - 1) * value ns ds + 1
                < (n - 1) + (n - 1) * value ns ds := by omega
              _ = (n - 1) * (value ns ds + 1) := by rw [Nat.mul_succ, Nat.add_comm]
              _ ≤ (n - 1) * total ns := Nat.mul_le_mul_left _ hlt

/-- A row of digits is known from its rank. -/
theorem value_injective {ns ds es : List Nat} (h : Shows ns ds) (h' : Shows ns es)
    (heq : value ns ds = value ns es) : ds = es := by
  induction h generalizing es with
  | nil => cases h'; rfl
  | @cons n d ns ds hd hds ih =>
      cases h' with
      | @cons _ e _ es he hes =>
          rw [value, value] at heq
          have hdmod : (d - 1 + (n - 1) * value ns ds) % (n - 1) = d - 1 := by
            rw [Nat.add_mul_mod_self_left, Nat.mod_eq_of_lt (by omega)]
          have hemod : (e - 1 + (n - 1) * value ns es) % (n - 1) = e - 1 := by
            rw [Nat.add_mul_mod_self_left, Nat.mod_eq_of_lt (by omega)]
          have hde : d = e := by
            rw [heq, hemod] at hdmod
            omega
          subst hde
          have hvalue : value ns ds = value ns es :=
            Nat.eq_of_mul_eq_mul_left (by omega : 0 < n - 1) (by omega)
          rw [ih hes hvalue]

theorem shows_ones {ns : List Nat} (h : ∀ n ∈ ns, 2 ≤ n) :
    Shows ns (List.replicate ns.length 1) := by
  induction ns with
  | nil => exact .nil
  | cons n ns ih =>
      have hn := h n (by simp)
      exact .cons ⟨le_refl 1, hn⟩ (ih fun m hm => h m (by simp [hm]))

theorem value_ones (ns : List Nat) : value ns (List.replicate ns.length 1) = 0 := by
  induction ns with
  | nil => rfl
  | cons n ns ih => simp [value, List.replicate_succ, ih]

section Readings

variable {ns : List Nat} (h : ∀ n ∈ ns, 2 ≤ n)

include h

theorem shows_reading (m : Nat) : Shows ns (reading ns m) := by
  induction m with
  | zero => exact shows_ones h
  | succ m ih =>
      rw [reading_succ]
      exact ih.tick

theorem value_reading (m : Nat) : value ns (reading ns m) = m % total ns := by
  induction m with
  | zero => rw [Nat.zero_mod]; exact value_ones ns
  | succ m ih =>
      rw [reading_succ, value_tick (shows_reading h m), ih, Nat.mod_add_mod]

/-- Every row of digits is shown at the tick its rank says. -/
theorem reading_value {ds : List Nat} (hds : Shows ns ds) : reading ns (value ns ds) = ds := by
  refine value_injective (shows_reading h _) hds ?_
  rw [value_reading h, Nat.mod_eq_of_lt hds.value_lt]

theorem mem_readings {ds : List Nat} :
    ds ∈ (List.range (total ns)).map (reading ns) ↔ Shows ns ds := by
  rw [List.mem_map]
  constructor
  · rintro ⟨m, _, rfl⟩
    exact shows_reading h m
  · intro hds
    exact ⟨value ns ds, List.mem_range.mpr hds.value_lt, reading_value h hds⟩

theorem readings_nodup : ((List.range (total ns)).map (reading ns)).Nodup := by
  refine List.Nodup.map_on ?_ List.nodup_range
  intro a ha b hb heq
  rw [List.mem_range] at ha hb
  have hv := congrArg (value ns) heq
  rwa [value_reading h, value_reading h, Nat.mod_eq_of_lt ha, Nat.mod_eq_of_lt hb] at hv

end Readings

/-! ## Wheels at some of many positions

The wheels sit at the positions `ids`, which are some of the positions `ks`, in
an order of their own.  Everywhere else the row shows `0`. -/

section Spread

variable {κ : Type} [DecidableEq κ]

/-- The digits of the wheels at `ids`, seen from the positions `ks`. -/
def spread (ks ids : List κ) (ds : List Nat) : List Nat :=
  ks.map fun k => ds.getD (ids.idxOf k) 0

theorem exists_map_eq {ids : List κ} (hids : ids.Nodup) {ds : List Nat}
    (h : ds.length = ids.length) : ∃ f : κ → Nat, ds = ids.map f := by
  refine ⟨fun k => ds.getD (ids.idxOf k) 0, ?_⟩
  refine List.ext_getElem (by simp [h]) ?_
  intro i hi hi'
  rw [List.length_map] at hi'
  rw [List.getElem_map, hids.idxOf_getElem i hi', List.getD_eq_getElem]

theorem spread_map (ks ids : List κ) (f : κ → Nat) :
    spread ks ids (ids.map f) = ks.map fun k => if k ∈ ids then f k else 0 := by
  refine List.map_congr_left fun k _ => ?_
  by_cases hk : k ∈ ids
  · have hlt := List.idxOf_lt_length_of_mem hk
    rw [if_pos hk, List.getD_eq_getElem _ _ (by simpa using hlt), List.getElem_map,
      List.getElem_idxOf hlt]
  · have hge : (ids.map f).length ≤ ids.idxOf k := by
      rw [List.length_map, List.idxOf_eq_length hk]
    rw [if_neg hk, List.getD_eq_default _ _ hge]

theorem forall₂_iff_map {R : κ → Nat → Prop} {ks : List κ} (hks : ks.Nodup) {v : List Nat} :
    List.Forall₂ R ks v ↔ ∃ f : κ → Nat, v = ks.map f ∧ ∀ k ∈ ks, R k (f k) := by
  constructor
  · intro h
    obtain ⟨f, rfl⟩ := exists_map_eq hks h.length_eq.symm
    exact ⟨f, rfl, List.forall₂_same.mp (List.forall₂_map_right_iff.mp h)⟩
  · rintro ⟨f, rfl, h⟩
    exact List.forall₂_map_right_iff.mpr (List.forall₂_same.mpr h)

omit [DecidableEq κ] in
theorem shows_map_iff {size f : κ → Nat} {ids : List κ} :
    Shows (ids.map size) (ids.map f) ↔ ∀ k ∈ ids, 1 ≤ f k ∧ f k < size k := by
  rw [Shows, List.forall₂_map_left_iff, List.forall₂_map_right_iff, List.forall₂_same]

variable {ks ids : List κ} {size : κ → Nat} (hids : ids.Nodup) (hsub : ids ⊆ ks)

include hids hsub

theorem spread_injective {ds es : List Nat} (hds : ds.length = ids.length)
    (hes : es.length = ids.length) (h : spread ks ids ds = spread ks ids es) : ds = es := by
  obtain ⟨f, rfl⟩ := exists_map_eq hids hds
  obtain ⟨f', rfl⟩ := exists_map_eq hids hes
  rw [spread_map, spread_map] at h
  refine List.map_congr_left fun k hk => ?_
  have := List.map_inj_left.mp h k (hsub hk)
  rwa [if_pos hk, if_pos hk] at this

variable (hsize : ∀ k ∈ ids, 2 ≤ size k)

include hsize

/-- A row at all positions is shown exactly when it is `0` off the wheels and a
digit of the wheel on each. -/
theorem mem_spread_readings (hks : ks.Nodup) {v : List Nat} :
    v ∈ (List.range (total (ids.map size))).map
        (fun i => spread ks ids (reading (ids.map size) i)) ↔
      List.Forall₂ (fun k x => if k ∈ ids then 1 ≤ x ∧ x < size k else x = 0) ks v := by
  have hns : ∀ n ∈ ids.map size, 2 ≤ n := by
    intro n hn
    obtain ⟨k, hk, rfl⟩ := List.mem_map.mp hn
    exact hsize k hk
  have hread : ∀ ds, (∃ i < total (ids.map size), reading (ids.map size) i = ds) ↔
      Shows (ids.map size) ds := by
    intro ds
    rw [← mem_readings hns, List.mem_map]
    simp only [List.mem_range]
  rw [List.mem_map, forall₂_iff_map hks]
  simp only [List.mem_range]
  constructor
  · rintro ⟨i, hi, rfl⟩
    have hshows := (hread _).mp ⟨i, hi, rfl⟩
    have hlen : (reading (ids.map size) i).length = ids.length := by
      rw [← hshows.length_eq, List.length_map]
    obtain ⟨f, hf⟩ := exists_map_eq hids hlen
    rw [hf] at hshows ⊢
    refine ⟨_, spread_map ks ids f, fun k _ => ?_⟩
    split
    · next hk => exact shows_map_iff.mp hshows k hk
    · rfl
  · rintro ⟨f, rfl, hf⟩
    obtain ⟨i, hi, hreading⟩ := (hread (ids.map f)).mpr <| shows_map_iff.mpr fun k hk => by
      have := hf k (hsub hk)
      rwa [if_pos hk] at this
    refine ⟨i, hi, ?_⟩
    rw [hreading, spread_map]
    refine List.map_congr_left fun k hk => ?_
    have := hf k hk
    split at this
    · next hid => rw [if_pos hid]
    · next hid => rw [if_neg hid, this]

theorem spread_readings_nodup :
    ((List.range (total (ids.map size))).map
      fun i => spread ks ids (reading (ids.map size) i)).Nodup := by
  have hns : ∀ n ∈ ids.map size, 2 ≤ n := by
    intro n hn
    obtain ⟨k, hk, rfl⟩ := List.mem_map.mp hn
    exact hsize k hk
  have hlen : ∀ i, (reading (ids.map size) i).length = ids.length := by
    intro i
    rw [← (shows_reading hns i).length_eq, List.length_map]
  refine List.Nodup.map_on ?_ List.nodup_range
  intro i hi j hj h
  exact List.inj_on_of_nodup_map (readings_nodup hns) hi hj
    (spread_injective hids hsub (hlen i) (hlen j) h)

end Spread

end Odometer

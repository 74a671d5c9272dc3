import Stress.Campaign
import Mathlib.Algebra.BigOperators.Group.List.Lemmas
import Mathlib.Algebra.BigOperators.Ring.List
import Mathlib.Algebra.Order.BigOperators.GroupWithZero.List
import Mathlib.Algebra.Order.Ring.Int

/-!
# The number of runs of a test case

`getRun` multiplies the numbers of alternatives the manager knows.  An injector
that has not run yet is registered with `-1` sons, so it contributes the factor
`-2`.  `getRun_iff` says when the result is nonetheless the number of
combinations of the alternatives other than the first.
-/

namespace Stress

namespace TestCaseManager

/-! ## The product -/

theorem runProduct_ok {r x : Int} {ss : List InjectState} (h : runProduct r ss = .ok x)
    (hr : r ≤ intMax) :
    x = r * (ss.map fun s => s.numSons - 1).prod ∧ x ≤ intMax ∧
      ∀ s ∈ ss, intMin ≤ s.numSons - 1 := by
  induction ss generalizing r with
  | nil =>
      cases h
      exact ⟨by simp, hr, fun s hs => by cases hs⟩
  | cons s ss ih =>
      rw [runProduct] at h
      split at h
      · next hs =>
          obtain ⟨hx, hle, hall⟩ := ih h hs.2.2
          refine ⟨by rw [hx, List.map_cons, List.prod_cons, mul_assoc], hle, ?_⟩
          intro s' hs'
          cases List.mem_cons.mp hs' with
          | inl he => exact he ▸ hs.1
          | inr hm => exact hall s' hm
      · cases h

/-- Without a zero factor the partial products stay below the whole one. -/
theorem runProduct_of_le {r : Int} {ss : List InjectState}
    (hss : ∀ s ∈ ss, s.numSons - 1 ≠ 0 ∧ intMin ≤ s.numSons - 1)
    (h : |r * (ss.map fun s => s.numSons - 1).prod| ≤ intMax) :
    runProduct r ss = .ok (r * (ss.map fun s => s.numSons - 1).prod) := by
  induction ss generalizing r with
  | nil => simp [runProduct]
  | cons s ss ih =>
      rw [List.map_cons, List.prod_cons, ← mul_assoc] at h ⊢
      obtain ⟨_, hmin⟩ := hss s List.mem_cons_self
      have hrest : ∀ s' ∈ ss, s'.numSons - 1 ≠ 0 ∧ intMin ≤ s'.numSons - 1 :=
        fun s' hs' => hss s' (List.mem_cons_of_mem _ hs')
      have hne : (ss.map fun s => s.numSons - 1).prod ≠ 0 := by
        rw [Ne, List.prod_eq_zero_iff, List.mem_map]
        rintro ⟨s', hs', he⟩
        exact (hrest s' hs').1 he
      have hle : |r * (s.numSons - 1)| ≤ intMax := by
        calc |r * (s.numSons - 1)|
            = |r * (s.numSons - 1)| * 1 := (mul_one _).symm
          _ ≤ |r * (s.numSons - 1)| * |(ss.map fun s => s.numSons - 1).prod| :=
              mul_le_mul_of_nonneg_left (Int.one_le_abs hne) (abs_nonneg _)
          _ = |r * (s.numSons - 1) * (ss.map fun s => s.numSons - 1).prod| := (abs_mul _ _).symm
          _ ≤ intMax := h
      obtain ⟨hlo, hhi⟩ := abs_le.mp hle
      have hlo' : intMin ≤ r * (s.numSons - 1) := le_trans (by decide) hlo
      rw [runProduct, if_pos ⟨hmin, hlo', hhi⟩, ih hrest h]

/-- The factors of `getRun`, by the ids of the injectors. -/
theorem map_enabled (g : TSGenerator) (u : UInt64) (m : TestCaseManager) :
    ((m.enabled g u).map Prod.snd).map (fun s => s.numSons - 1) =
      ((m.enabled g u).map Prod.fst).map fun n => m.numSons n - 1 := by
  rw [List.map_map, List.map_map]
  refine List.map_congr_left fun p hp => ?_
  rw [Function.comp_apply, Function.comp_apply, numSons, (mem_enabled.mp hp).1]

end TestCaseManager

namespace World

/-- The injectors a test case enables, with their nodes. -/
def enabledInjectors (t : ParsedTree) (u : UInt64) (w : World) : List (Composite × UInt64) :=
  t.root.orNodes.filterMap fun c =>
    match w.strategy c.id with
    | some (.injectAction n) => if w.generator.enable u n then some (c, n) else none
    | _ => none

theorem mem_enabledInjectors {t : ParsedTree} {u : UInt64} {w : World} {c : Composite}
    {n : UInt64} : (c, n) ∈ w.enabledInjectors t u ↔
      c ∈ t.root.orNodes ∧ w.strategy c.id = some (.injectAction n) ∧
        w.generator.enable u n = true := by
  rw [enabledInjectors, List.mem_filterMap]
  constructor
  · rintro ⟨d, hd, h⟩
    split at h
    · next m hm =>
        split at h
        · next hu => cases h; exact ⟨hd, hm, hu⟩
        · cases h
    · cases h
  · rintro ⟨hc, hs, hu⟩
    refine ⟨c, hc, ?_⟩
    simp only [hs, hu, if_true]

/-- The number of runs of a test case: the alternatives other than the first, of
every enabled injector. -/
def runCount (t : ParsedTree) (u : UInt64) (w : World) : Int :=
  ((w.enabledInjectors t u).map fun p => (p.1.sons.length : Int) - 1).prod

/-- The enabled injectors that were executed before, so that the manager knows
the number of their sons. -/
def executedInjectors (t : ParsedTree) (u : UInt64) (w : World) : List (Composite × UInt64) :=
  (w.enabledInjectors t u).filter fun p => w.manager.numSons p.2 != -1

/-- The enabled injectors that were never executed. -/
def pendingInjectors (t : ParsedTree) (u : UInt64) (w : World) : List (Composite × UInt64) :=
  (w.enabledInjectors t u).filter fun p => w.manager.numSons p.2 == -1

/-- The counts of a test case come out right: they fit into an `int`, and the
injectors that were never executed make up for the `-2` each of them counts. -/
def CountsFit (t : ParsedTree) (u : UInt64) (w : World) : Prop :=
  w.runCount t u ≤ intMax ∧
  (∀ p ∈ w.executedInjectors t u, (p.1.sons.length : Int) ≤ intMax) ∧
  ((w.pendingInjectors t u).map fun p => (p.1.sons.length : Int) - 1).prod =
    (-2) ^ (w.pendingInjectors t u).length

end World

namespace Registered

variable {t : ParsedTree} {slots : Slots} {extra : Nat} {w : World}

theorem enabledInjectors_nodup (h : Registered t slots extra w) (u : UInt64) :
    ((w.enabledInjectors t u).map Prod.snd).Nodup := by
  have hnd : (w.enabledInjectors t u).Nodup := by
    refine List.Nodup.filterMap ?_ (List.Nodup.of_map _ t.orNodes_nodup)
    intro c d p hc hd
    split at hc
    · split at hc
      · cases hc
        split at hd
        · split at hd
          · cases hd; rfl
          · cases hd
        · cases hd
      · cases hc
    · cases hc
  refine List.Nodup.map_on ?_ hnd
  rintro ⟨c, n⟩ hc ⟨d, m⟩ hd he
  simp only at he
  subst he
  obtain ⟨hc, hcs, hu⟩ := World.mem_enabledInjectors.mp hc
  obtain ⟨hd, hds, _⟩ := World.mem_enabledInjectors.mp hd
  obtain ⟨i, hi, hn⟩ := h.slot_of_strategy hc hcs
  obtain ⟨j, hj, hm⟩ := h.slot_of_strategy hd hds
  rw [hm] at hu
  rw [h.node_unique hc hd hi hj hu (hn.symm.trans hm)]

/-- The entries `getRun` goes through are those of the enabled injectors. -/
theorem enabled_perm (h : Registered t slots extra w) (u : UInt64) :
    ((w.manager.enabled w.generator u).map Prod.fst).Perm
      ((w.enabledInjectors t u).map Prod.snd) := by
  rw [List.perm_ext_iff_of_nodup (TestCaseManager.enabled_nodup _ _ _)
    (h.enabledInjectors_nodup u)]
  intro n
  constructor
  · intro hn
    obtain ⟨p, hp, rfl⟩ := List.mem_map.mp hn
    obtain ⟨hs, hu⟩ := TestCaseManager.mem_enabled.mp hp
    obtain ⟨c, hc, j, hj, hid, _⟩ := h.observer p.1 p.2 hs
    have hstrategy := h.strategy_of_slot hc hj
    rw [← hid] at hstrategy
    exact List.mem_map.mpr ⟨(c, p.1), World.mem_enabledInjectors.mpr ⟨hc, hstrategy, hu⟩, rfl⟩
  · intro hn
    obtain ⟨⟨c, m⟩, hp, rfl⟩ := List.mem_map.mp hn
    obtain ⟨hc, hcs, hu⟩ := World.mem_enabledInjectors.mp hp
    obtain ⟨j, hj, hid⟩ := h.slot_of_strategy hc hcs
    obtain ⟨s, hs⟩ := Option.isSome_iff_exists.mp (h.registered _ hj)
    rw [← hid] at hs
    exact List.mem_map.mpr ⟨(m, s), TestCaseManager.mem_enabled.mpr ⟨hs, hu⟩, rfl⟩

/-- What the manager knows of an enabled injector. -/
theorem numSons_eq (h : Registered t slots extra w) {u : UInt64} {p : Composite × UInt64}
    (hp : p ∈ w.enabledInjectors t u) :
    w.manager.numSons p.2 = -1 ∨ w.manager.numSons p.2 = toInt32 p.1.sons.length := by
  obtain ⟨c, n⟩ := p
  obtain ⟨hc, hcs, hu⟩ := World.mem_enabledInjectors.mp hp
  obtain ⟨j, hj, hid⟩ := h.slot_of_strategy hc hcs
  simp only [TestCaseManager.numSons]
  split
  · next s hs =>
      obtain ⟨d, hd, i, hi, hid', hnum, _⟩ := h.observer n s hs
      rw [hid'] at hu
      have hcd := h.node_unique hc hd hj hi hu (hid.symm.trans hid')
      rw [hcd]
      exact hnum
  · exact .inl rfl

end Registered

/-! ## The counts -/

namespace World

variable {t : ParsedTree} {u : UInt64} {w : World}

theorem one_le_sons {p : Composite × UInt64} (hp : p ∈ w.enabledInjectors t u) :
    1 ≤ (p.1.sons.length : Int) - 1 := by
  have := t.alternatives p.1 (mem_enabledInjectors.mp hp).1
  omega

theorem one_le_runCount (t : ParsedTree) (u : UInt64) (w : World) : 1 ≤ w.runCount t u := by
  have hpos : 0 < w.runCount t u := by
    refine List.prod_pos fun x hx => ?_
    obtain ⟨p, hp, rfl⟩ := List.mem_map.mp hx
    have := one_le_sons hp
    omega
  omega

theorem prod_executed_pending (f : Composite × UInt64 → Int) :
    ((w.enabledInjectors t u).map f).prod =
      ((w.executedInjectors t u).map f).prod * ((w.pendingInjectors t u).map f).prod := by
  have hperm := List.filter_append_perm (fun p : Composite × UInt64 => w.manager.numSons p.2 == -1)
    (w.enabledInjectors t u)
  rw [← ((hperm.map f).prod_eq), List.map_append, List.prod_append, mul_comm]
  rfl

/-- A son of an enabled injector is one of the combinations counted. -/
theorem sons_le_runCount {p : Composite × UInt64} (hp : p ∈ w.enabledInjectors t u) :
    (p.1.sons.length : Int) - 1 ≤ w.runCount t u := by
  have hdvd : (p.1.sons.length : Int) - 1 ∣ w.runCount t u :=
    List.dvd_prod (List.mem_map.mpr ⟨p, hp, rfl⟩)
  exact Int.le_of_dvd (Int.lt_of_lt_of_le Int.zero_lt_one (one_le_runCount t u w)) hdvd

end World

namespace Registered

variable {t : ParsedTree} {slots : Slots} {extra : Nat} {w : World}

/-- The product `getRun` computes. -/
theorem prod_numSons (h : Registered t slots extra w) (u : UInt64) :
    (((w.manager.enabled w.generator u).map Prod.snd).map fun s => s.numSons - 1).prod =
      ((w.executedInjectors t u).map fun p => toInt32 p.1.sons.length - 1).prod *
        (-2) ^ (w.pendingInjectors t u).length := by
  have hexec : (w.executedInjectors t u).map (fun p => w.manager.numSons p.2 - 1) =
      (w.executedInjectors t u).map fun p => toInt32 p.1.sons.length - 1 := by
    refine List.map_congr_left fun p hp => ?_
    obtain ⟨hp, hne⟩ := List.mem_filter.mp hp
    rw [(h.numSons_eq hp).resolve_left (bne_iff_ne.mp hne)]
  have hpend : ((w.pendingInjectors t u).map fun p => w.manager.numSons p.2 - 1) =
      List.replicate (w.pendingInjectors t u).length (-2) := by
    rw [List.eq_replicate_iff, List.length_map]
    refine ⟨rfl, fun x hx => ?_⟩
    obtain ⟨p, hp, rfl⟩ := List.mem_map.mp hx
    rw [beq_iff_eq.mp (List.mem_filter.mp hp).2]
    rfl
  calc (((w.manager.enabled w.generator u).map Prod.snd).map fun s => s.numSons - 1).prod
      = (((w.enabledInjectors t u).map Prod.snd).map fun n => w.manager.numSons n - 1).prod := by
        rw [TestCaseManager.map_enabled]
        exact ((h.enabled_perm u).map _).prod_eq
    _ = ((w.enabledInjectors t u).map fun p => w.manager.numSons p.2 - 1).prod := by
        rw [List.map_map]
        rfl
    _ = ((w.executedInjectors t u).map fun p => w.manager.numSons p.2 - 1).prod *
          ((w.pendingInjectors t u).map fun p => w.manager.numSons p.2 - 1).prod :=
        World.prod_executed_pending _
    _ = _ := by rw [hexec, hpend, List.prod_replicate]

/-- `getRun` gives the number of runs exactly when the counts fit. -/
theorem getRun_iff (h : Registered t slots extra w) (u : UInt64) :
    (∃ m, w.manager.getRun w.generator u = .ok (w.runCount t u, m)) ↔ w.CountsFit t u := by
  have hrun : (∃ m, w.manager.getRun w.generator u = .ok (w.runCount t u, m)) ↔
      TestCaseManager.runProduct 1 ((w.manager.enabled w.generator u).map Prod.snd) =
        .ok (w.runCount t u) := by
    unfold TestCaseManager.getRun
    cases TestCaseManager.runProduct 1 ((w.manager.enabled w.generator u).map Prod.snd) with
    | error x => simp
    | ok x => simp
  have hprod := h.prod_numSons u
  have hcount : w.runCount t u =
      ((w.executedInjectors t u).map fun p => (p.1.sons.length : Int) - 1).prod *
        ((w.pendingInjectors t u).map fun p => (p.1.sons.length : Int) - 1).prod :=
    World.prod_executed_pending _
  have hknown : (∀ p ∈ w.executedInjectors t u, (p.1.sons.length : Int) ≤ intMax) →
      ((w.executedInjectors t u).map fun p => toInt32 p.1.sons.length - 1) =
        (w.executedInjectors t u).map fun p => (p.1.sons.length : Int) - 1 := by
    intro hfit
    exact List.map_congr_left fun p hp => by rw [toInt32_eq (hfit p hp)]
  rw [hrun]
  constructor
  · intro hok
    obtain ⟨hx, hle, hfactor⟩ := TestCaseManager.runProduct_ok hok (by decide)
    have hfit : ∀ p ∈ w.executedInjectors t u, (p.1.sons.length : Int) ≤ intMax := by
      intro p hp
      obtain ⟨hpe, hne⟩ := List.mem_filter.mp hp
      have hbound := (World.sons_le_runCount hpe).trans hle
      -- With `2 ^ 31` sons the entry holds `INT_MIN`, and the factor overflows.
      by_contra hgt
      have hsize : p.1.sons.length = 2147483648 := by
        rw [intMax] at hbound hgt
        omega
      have hnum := (h.numSons_eq hpe).resolve_left (bne_iff_ne.mp hne)
      have hmem : w.manager.numSons p.2 - 1 ∈
          ((w.manager.enabled w.generator u).map Prod.snd).map fun s => s.numSons - 1 := by
        rw [TestCaseManager.map_enabled]
        refine List.mem_map.mpr ⟨p.2, (h.enabled_perm u).mem_iff.mpr ?_, rfl⟩
        exact List.mem_map.mpr ⟨p, hpe, rfl⟩
      obtain ⟨s, hs, he⟩ := List.mem_map.mp hmem
      have hlow := hfactor s hs
      rw [he, hnum, hsize] at hlow
      exact absurd hlow (by decide)
    refine ⟨hle, hfit, ?_⟩
    rw [one_mul, hprod, hknown hfit, hcount] at hx
    refine mul_left_cancel₀ ?_ hx
    rw [Ne, List.prod_eq_zero_iff, List.mem_map]
    rintro ⟨p, hp, he⟩
    have := World.one_le_sons (List.mem_filter.mp hp).1
    omega
  · rintro ⟨hle, hfit, hpend⟩
    have hvalue : (((w.manager.enabled w.generator u).map Prod.snd).map
        fun s => s.numSons - 1).prod = w.runCount t u := by
      rw [hprod, hknown hfit, hcount, hpend]
    have habs : |1 * (((w.manager.enabled w.generator u).map Prod.snd).map
        fun s => s.numSons - 1).prod| ≤ intMax := by
      rw [one_mul, hvalue, abs_of_nonneg (by have := World.one_le_runCount t u w; omega)]
      exact hle
    rw [TestCaseManager.runProduct_of_le ?_ habs, one_mul, hvalue]
    intro s hs
    have hmem : s.numSons - 1 ∈ ((w.enabledInjectors t u).map Prod.snd).map
        fun n => w.manager.numSons n - 1 := by
      refine ((h.enabled_perm u).map _).mem_iff.mp ?_
      rw [← TestCaseManager.map_enabled]
      exact List.mem_map.mpr ⟨s, hs, rfl⟩
    rw [List.map_map] at hmem
    obtain ⟨p, hp, he⟩ := List.mem_map.mp hmem
    rw [← he, Function.comp_apply]
    by_cases hn : w.manager.numSons p.2 = -1
    · rw [hn]
      decide
    · have hpe : p ∈ w.executedInjectors t u :=
        List.mem_filter.mpr ⟨hp, bne_iff_ne.mpr hn⟩
      have hone := World.one_le_sons hp
      rw [(h.numSons_eq hp).resolve_left hn, toInt32_eq (hfit p hpe), intMin]
      omega

end Registered

namespace Main

/-- At every call of `getRun` that `main` makes, the result is the number of
combinations of the enabled injectors, and at least one, if and only if the
counts fit. -/
theorem getRun_counts_iff (P : Platform) (t : ParsedTree) (g : TSGenerator) (e : Env) (m : Main)
    (h : Reachable P t g e m) (_ : m.phase = .outer) (_ : m.u64 < m.numberInjector) :
    ((∃ manager, m.world.manager.getRun g m.u64 = .ok (m.world.runCount t m.u64, manager)) ∧
      1 ≤ m.world.runCount t m.u64) ↔ m.world.CountsFit t m.u64 := by
  obtain ⟨_, slots, hr⟩ := h.inv.valid
  rw [and_iff_left (World.one_le_runCount t m.u64 m.world), ← hr.getRun_iff, h.inv.generator]

/-- A read and an alternative behind it, as in `r = (<%UDP_read%>) ("a" / "b")`. -/
def readThenChoice : ParsedTree where
  root := .node .composite 0 (ascii "r")
    [.node .composite 1 (ascii "()") [.leaf .commandComposite 2 (ascii "<%UDP_read%>")],
     .node .composite 3 (ascii "()")
       [.node .orComposite 4 (ascii "/")
         [.leaf .stringLeaf 5 (ascii "\\\"a\\\""), .leaf .stringLeaf 6 (ascii "\\\"b\\\"")]]]
  nodup := by decide
  sons_ne_nil := by decide
  alternatives := by decide
  size := by decide

/-- The second test case of `readThenChoice` when no packet arrives. -/
def readThenChoiceSecond : Main :=
  after ⟨id, 0⟩ readThenChoice 3 (start readThenChoice .exp {})

theorem getRun_counts_iff_readThenChoice :
    ((∃ manager, readThenChoiceSecond.world.manager.getRun .exp readThenChoiceSecond.u64 =
        .ok (readThenChoiceSecond.world.runCount readThenChoice readThenChoiceSecond.u64,
          manager)) ∧
      1 ≤ readThenChoiceSecond.world.runCount readThenChoice readThenChoiceSecond.u64) ↔
        readThenChoiceSecond.world.CountsFit readThenChoice readThenChoiceSecond.u64 :=
  getRun_counts_iff ⟨id, 0⟩ readThenChoice .exp {} readThenChoiceSecond
    (reachable_after _ _ _ _ _) (by decide) (by decide)

/-- The read fails, so the injector behind it is not executed in the first run,
and `getRun` gives `-2` instead of `1`. -/
theorem getRun_skips_a_test_case :
    ¬ ∀ (P : Platform) (t : ParsedTree) (g : TSGenerator) (e : Env) (m : Main),
      Reachable P t g e m → m.phase = .outer → m.u64 < m.numberInjector →
        (∃ manager, m.world.manager.getRun g m.u64 =
          .ok (m.world.runCount t m.u64, manager)) ∧ 1 ≤ m.world.runCount t m.u64 := by
  intro hall
  obtain ⟨⟨manager, h⟩, _⟩ := hall ⟨id, 0⟩ readThenChoice .exp {} readThenChoiceSecond
    (reachable_after _ _ _ _ _) (by decide) (by decide)
  have hcount :
      readThenChoiceSecond.world.runCount readThenChoice readThenChoiceSecond.u64 = 1 := by
    decide
  have hvalue : (readThenChoiceSecond.world.manager.getRun .exp
      readThenChoiceSecond.u64).map Prod.fst = .ok (-2) := by decide
  rw [h, hcount] at hvalue
  cases hvalue

end Main

end Stress

import Stress.RunCounts
import Stress.Schedule
import Mathlib.Algebra.BigOperators.Ring.Finset

/-!
# The vectors a campaign selects

Every run of a campaign selects a vector of alternatives.  When the first run
executes every injector of the tree, the runs select each scheduled vector once,
unless one of them ends the program (`campaign_covers_iff`).

Until `main` leaves the first test case no injector is enabled, so that its one
run selects the zero vector.  From then on every injector has its number and its
count of sons for good (`Numbered`), and the runs of a test case follow the
readings of the odometer of its injectors (`InBlock`).
-/

namespace Stress

namespace World

/-- The vector of alternatives a world selects. -/
def selection (t : ParsedTree) (w : World) : List Nat :=
  t.root.orNodes.map fun c => w.selected c.id

/-- The injector of a node was executed, so that the manager knows its sons. -/
def executed (w : World) (c : Composite) : Bool :=
  match w.strategy c.id with
  | some (.injectAction n) => decide (0 ≤ w.manager.numSons n)
  | _ => false

theorem executed_iff {w : World} {c : Composite} : w.executed c = true ↔
    ∃ n, w.strategy c.id = some (.injectAction n) ∧ 0 ≤ w.manager.numSons n := by
  unfold executed
  split
  · next n hn => simp [hn]
  · next hn =>
      simp only [Bool.false_eq_true, false_iff]
      rintro ⟨n, hs, _⟩
      exact hn n hs

end World

/-- Every `InjectAction` of the run has returned the result of the alternative that the world
of the run selects for its node. -/
def Run.Obeys (P : Platform) (t : ParsedTree) (r : Run) : Prop :=
  ∃ e, eval P r.world.selected t.root e = .ok (r.result, r.world.env)

/-- The vectors selected so far. -/
def Main.selections (t : ParsedTree) (m : Main) : List (List Nat) :=
  m.runs.map fun r => r.world.selection t

/-- The first run, that of test case `0`, executes every injector. -/
def BaselineExecutesAll (P : Platform) (t : ParsedTree) (g : TSGenerator) (e : Env) : Prop :=
  ∀ m, Main.Reachable P t g e m → ∀ r ∈ m.runs, r.u64 = 0 →
    ∀ c ∈ t.root.orNodes, r.world.executed c = true

/-! ## Numbered injectors -/

/-- Every injector is registered under its number, and its sons are known. -/
structure Numbered (t : ParsedTree) (num : Nat → Nat) (w : World) : Prop where
  strategy : ∀ c ∈ t.root.orNodes,
    w.strategy c.id = some (.injectAction (w.generator.injectionId (num c.id)))
  sons : ∀ c ∈ t.root.orNodes,
    w.manager.numSons (w.generator.injectionId (num c.id)) = c.sons.length

theorem exists_enable (g : TSGenerator) {j : Nat} (hj : j < 31) :
    ∃ u, g.enable u (g.injectionId j) = true := by
  refine ⟨g.injectionId j, ?_⟩
  cases g with
  | exp =>
      rw [TSGenerator.enable_exp, decide_eq_true (by omega), Bool.true_and,
        TSGenerator.injectionId_eq, TSGenerator.nextInjectionId_exp, min_eq_left (by omega)]
      exact Nat.testBit_two_pow_self
  | seq => exact beq_self_eq_true _

theorem injectionId_injOn (g : TSGenerator) {i j : Nat} (hi : i < 31) (hj : j < 31)
    (h : g.injectionId i = g.injectionId j) : i = j := by
  obtain ⟨u, hu⟩ := exists_enable g hj
  exact TSGenerator.injectionId_injective_of_enable (by omega) (by omega) hu h

namespace TestCaseManager

theorem exists_entry {m : TestCaseManager} {n : UInt64} (h : 0 ≤ m.numSons n) :
    ∃ s, m.observer[n]? = some s ∧ s.numSons = m.numSons n := by
  rw [numSons] at h ⊢
  cases hs : m.observer[n]? with
  | none => rw [hs] at h; exact absurd h (by decide)
  | some s => exact ⟨s, rfl, rfl⟩

theorem numSons_congr {m m' : TestCaseManager} {n : UInt64}
    (h : (m'.observer[n]?).map InjectState.numSons = (m.observer[n]?).map InjectState.numSons) :
    m'.numSons n = m.numSons n := by
  rw [numSons, numSons]
  cases hs : m.observer[n]? with
  | none =>
      rw [hs] at h
      rw [Option.map_eq_none_iff.mp h]
  | some s =>
      rw [hs] at h
      obtain ⟨s', hs', he⟩ := Option.map_eq_some_iff.mp h
      rw [hs']
      exact he

theorem numSons_updateInjectorState (m : TestCaseManager) (n : UInt64) :
    m.updateInjectorState.numSons n = m.numSons n :=
  numSons_congr ((increaseStates_frame _ _).2.2 n)

end TestCaseManager

namespace Numbered

variable {t : ParsedTree} {num : Nat → Nat} {w w' : World}

theorem of_eq (h : Numbered t num w) (hgen : w'.generator = w.generator)
    (hstrategy : w'.strategy = w.strategy)
    (hsons : ∀ n, w'.manager.numSons n = w.manager.numSons n) : Numbered t num w' where
  strategy c hc := by rw [hgen, hstrategy]; exact h.strategy c hc
  sons c hc := by rw [hgen, hsons]; exact h.sons c hc

variable (hnum : Numbering t num) (hk : t.root.orNodes.length ≤ 31)

include hnum hk

theorem lt_of_mem {c : Composite} (hc : c ∈ t.root.orNodes) : num c.id < 31 :=
  (hnum.lt c hc).trans_le hk

/-- A run keeps the entries of numbered injectors. -/
theorem entry_eq (h : Numbered t num w) (hg : w.Grows w') {c : Composite}
    (hc : c ∈ t.root.orNodes) :
    w'.manager.observer[w.generator.injectionId (num c.id)]? =
      w.manager.observer[w.generator.injectionId (num c.id)]? := by
  have hsons := h.sons c hc
  obtain ⟨s, hs, hn⟩ := TestCaseManager.exists_entry (hsons ▸ Int.natCast_nonneg _)
  rw [hs]
  refine hg.executed _ s (exists_enable _ (lt_of_mem hnum hk hc)) hs ?_
  rw [hn, hsons]
  exact Int.natCast_nonneg _

theorem grows (h : Numbered t num w) (hg : w.Grows w') : Numbered t num w' where
  strategy c hc := by
    rw [hg.generator]
    exact hg.strategy _ _ (h.strategy c hc)
  sons c hc := by
    rw [hg.generator, TestCaseManager.numSons, entry_eq hnum hk h hg hc]
    exact h.sons c hc

end Numbered

/-- Once every injector is executed, the slots number them. -/
theorem Registered.numbered {t : ParsedTree} {slots : Slots} {w : World}
    (h : Registered t slots 0 w) (hk : t.root.orNodes.length ≤ 31)
    (hsons : ∀ c ∈ t.root.orNodes, (c.sons.length : Int) ≤ intMax)
    (hexec : ∀ c ∈ t.root.orNodes, w.executed c = true) :
    ∃ num, Numbering t num ∧ Numbered t num w := by
  have hslot : ∀ c ∈ t.root.orNodes, (c.id, (slots.lookup c.id).getD 0) ∈ slots := by
    intro c hc
    obtain ⟨n, hn, _⟩ := World.executed_iff.mp (hexec c hc)
    obtain ⟨j, hj, _⟩ := h.slot_of_strategy hc hn
    rw [h.lookup_of_mem hj]
    exact hj
  have hlt : ∀ c ∈ t.root.orNodes, (slots.lookup c.id).getD 0 < t.root.orNodes.length :=
    fun c hc => (h.bound _ (hslot c hc)).trans_le h.slots_length_le
  refine ⟨fun id => (slots.lookup id).getD 0, ⟨?_, hlt⟩, ⟨?_, ?_⟩⟩
  · refine List.Nodup.map_on ?_ (List.Nodup.of_map _ t.orNodes_nodup)
    intro c hc d hd he
    have heq := List.inj_on_of_nodup_map h.calls (hslot c hc) (hslot d hd) he
    exact t.eq_of_id_eq (List.mem_filter.mp hc).1 (List.mem_filter.mp hd).1
      (Prod.mk.inj heq).1
  · intro c hc
    exact h.strategy_of_slot hc (hslot c hc)
  · intro c hc
    obtain ⟨n, hn, hnonneg⟩ := World.executed_iff.mp (hexec c hc)
    have hid := (h.strategy_of_slot hc (hslot c hc)).symm.trans hn
    simp only [Option.some.injEq, Action.injectAction.injEq] at hid
    rw [← hid] at hnonneg
    obtain ⟨s, hs, he⟩ := TestCaseManager.exists_entry hnonneg
    obtain ⟨d, hd, i, hi, hi', hnum, _⟩ := h.observer _ s hs
    have hi31 : i < 31 := lt_of_lt_of_le (h.bound _ hi) (h.slots_length_le.trans hk)
    have hij := injectionId_injOn _ ((hlt c hc).trans_le hk) hi31 hi'
    rw [← hij] at hi
    have heq := List.inj_on_of_nodup_map h.calls (hslot c hc) hi rfl
    have hcd : c = d := t.eq_of_id_eq (List.mem_filter.mp hc).1 (List.mem_filter.mp hd).1
      (Prod.mk.inj heq).1
    rw [← he, hnum.resolve_left (by omega), ← hcd, toInt32_eq (hsons c hc)]

/-! ## The runs of one test case -/

/-- The injectors of test case `u`, in the order of the manager, and their
numbers of sons. -/
structure CaseIds (t : ParsedTree) (g : TSGenerator) (num : Nat → Nat) (u : Nat)
    (ids : List UInt64) (size : UInt64 → Nat) : Prop where
  nodup : ids.Nodup
  mem : ∀ n, n ∈ ids ↔
    ∃ c ∈ t.root.orNodes, n = g.injectionId (num c.id) ∧ turns g u (num c.id) = true
  size : ∀ c ∈ t.root.orNodes, size (g.injectionId (num c.id)) = c.sons.length

/-- The vector of the `j`-th run of a test case. -/
def caseVector (t : ParsedTree) (g : TSGenerator) (num : Nat → Nat) (ids : List UInt64)
    (size : UInt64 → Nat) (j : Nat) : List Nat :=
  Odometer.spread (t.root.orNodes.map fun c => g.injectionId (num c.id)) ids
    (Odometer.reading (ids.map size) j)

/-- The manager stands before the `j`-th run of a test case. -/
structure InBlock (ids : List UInt64) (size : UInt64 → Nat) (j : Nat) (m : TestCaseManager) :
    Prop where
  testCaseState : m.testCaseState = ids
  digits : ids.map m.digit = Odometer.reading (ids.map size) j

section Block

variable {t : ParsedTree} {g : TSGenerator} {num : Nat → Nat} {u : Nat} {ids : List UInt64}
  {size : UInt64 → Nat}

theorem CaseIds.two_le (h : CaseIds t g num u ids size) : ∀ n ∈ ids, 2 ≤ size n := by
  intro n hn
  obtain ⟨c, hc, rfl, _⟩ := (h.mem n).mp hn
  rw [h.size c hc]
  exact t.alternatives c hc

theorem CaseIds.subset (h : CaseIds t g num u ids size) :
    ids ⊆ t.root.orNodes.map fun c => g.injectionId (num c.id) := by
  intro n hn
  obtain ⟨c, hc, rfl, _⟩ := (h.mem n).mp hn
  exact List.mem_map.mpr ⟨c, hc, rfl⟩

theorem CaseIds.caseVectors_nodup (h : CaseIds t g num u ids size) :
    ((List.range (Odometer.total (ids.map size))).map (caseVector t g num ids size)).Nodup :=
  Odometer.spread_readings_nodup h.nodup h.subset h.two_le

/-- A world in a test case selects the vector of its run. -/
theorem selection_eq {w : World} (hgen : w.generator = g) (hw : Numbered t num w) {j : Nat}
    (hb : InBlock ids size j w.manager) :
    w.selection t = caseVector t g num ids size j := by
  rw [caseVector, ← hb.digits, Odometer.spread_map, List.map_map]
  refine List.map_congr_left fun c hc => ?_
  have hs := hw.strategy c hc
  rw [hgen] at hs
  unfold World.selected
  simp only [hs]
  rw [TestCaseManager.updateInjector_eq, hb.testCaseState]
  rfl

/-- The manager moves on to the next run. -/
theorem InBlock.updateInjectorState {w : World} (hgen : w.generator = g) (hw : Numbered t num w)
    (h : CaseIds t g num u ids size) {j : Nat} (hb : InBlock ids size j w.manager) :
    InBlock ids size (j + 1) w.manager.updateInjectorState where
  testCaseState := (TestCaseManager.increaseStates_frame _ _).1.trans hb.testCaseState
  digits := by
    have hsons : ∀ n ∈ ids, w.manager.numSons n = size n := by
      intro n hn
      obtain ⟨c, hc, rfl, _⟩ := (h.mem n).mp hn
      rw [h.size c hc, ← hgen]
      exact hw.sons c hc
    have hentry : ∀ n ∈ ids, (w.manager.observer[n]?).isSome := by
      intro n hn
      obtain ⟨s, hs, _⟩ :=
        TestCaseManager.exists_entry (hsons n hn ▸ Int.natCast_nonneg (size n))
      rw [hs]
      rfl
    have hwheels : ids.map w.manager.wheel = ids.map size := by
      refine List.map_congr_left fun n hn => ?_
      rw [TestCaseManager.wheel, hsons n hn, Int.toNat_natCast]
    rw [TestCaseManager.updateInjectorState, hb.testCaseState,
      TestCaseManager.digits_increaseStates h.nodup hentry, hwheels, hb.digits,
      Odometer.reading_succ]

variable (hnum : Numbering t num) (hk : t.root.orNodes.length ≤ 31)

include hnum hk

theorem numbers_nodup : (t.root.orNodes.map fun c => g.injectionId (num c.id)).Nodup := by
  refine List.Nodup.map_on ?_ (List.Nodup.of_map _ t.orNodes_nodup)
  intro c hc d hd he
  exact hnum.eq_of_num_eq hc hd
    (injectionId_injOn g (Numbered.lt_of_mem hnum hk hc) (Numbered.lt_of_mem hnum hk hd) he)

theorem CaseIds.mem_iff (h : CaseIds t g num u ids size) {c : Composite}
    (hc : c ∈ t.root.orNodes) :
    g.injectionId (num c.id) ∈ ids ↔ turns g u (num c.id) = true := by
  rw [h.mem]
  constructor
  · rintro ⟨d, hd, he, hturn⟩
    have hcd := hnum.eq_of_num_eq hc hd
      (injectionId_injOn g (Numbered.lt_of_mem hnum hk hc) (Numbered.lt_of_mem hnum hk hd) he)
    rwa [hcd]
  · intro hturn
    exact ⟨c, hc, rfl, hturn⟩

/-- The runs of a test case select its vectors. -/
theorem CaseIds.mem_caseVectors (h : CaseIds t g num u ids size) (v : List Nat) :
    v ∈ (List.range (Odometer.total (ids.map size))).map (caseVector t g num ids size) ↔
      InCase t g num u v := by
  change v ∈ (List.range _).map (fun j => Odometer.spread _ _ _) ↔ _
  rw [Odometer.mem_spread_readings h.nodup h.subset h.two_le (numbers_nodup hnum hk),
    List.forall₂_map_left_iff, InCase, forall₂_orNodes, forall₂_orNodes]
  refine exists_congr fun f => and_congr_right fun _ => forall₂_congr fun c hc => ?_
  have halt := t.alternatives c hc
  have hmem := h.mem_iff hnum hk hc
  rw [h.size c hc]
  split
  · next hin =>
      rw [hmem.mp hin]
      simp only [ne_eq, iff_true]
      omega
  · next hout =>
      have hturn : turns g u (num c.id) = false :=
        Bool.eq_false_iff.mpr fun hturn => hout (hmem.mpr hturn)
      rw [hturn]
      simp only [ne_eq, Bool.false_eq_true, iff_false, Decidable.not_not]
      omega

/-- A run leaves the manager in its place. -/
theorem InBlock.grows {w w' : World} (hgen : w.generator = g) (hw : Numbered t num w)
    (h : CaseIds t g num u ids size) (hg : w.Grows w') {j : Nat}
    (hb : InBlock ids size j w.manager) : InBlock ids size j w'.manager where
  testCaseState := hg.testCaseState.trans hb.testCaseState
  digits := by
    rw [← hb.digits]
    refine List.map_congr_left fun n hn => TestCaseManager.digit_eq ?_
    obtain ⟨c, hc, rfl, _⟩ := (h.mem n).mp hn
    rw [← hgen]
    exact hw.entry_eq hnum hk hg hc

end Block

/-! ## Starting a test case -/

/-- A product over some of the elements divides the product over all. -/
theorem prod_filterMap_dvd {α β : Type} {f : α → Option β} {x : β → Nat} {y : α → Nat}
    (h : ∀ a b, f a = some b → x b = y a) (l : List α) :
    ((l.filterMap f).map x).prod ∣ (l.map y).prod := by
  induction l with
  | nil => exact dvd_refl 1
  | cons a l ih =>
      rw [List.filterMap_cons, List.map_cons, List.prod_cons]
      cases hf : f a with
      | none => exact ih.mul_left _
      | some b =>
          rw [List.map_cons, List.prod_cons, h a b hf]
          exact Nat.mul_dvd_mul_left _ ih

theorem prod_sons_pos (t : ParsedTree) :
    0 < (t.root.orNodes.map fun c => c.sons.length).prod := by
  refine List.prod_pos fun x hx => ?_
  obtain ⟨d, hd, rfl⟩ := List.mem_map.mp hx
  have := t.alternatives d hd
  omega

theorem numSons_enabled {t : ParsedTree} {num : Nat → Nat} {w : World} {u : UInt64}
    (hw : Numbered t num w) {p : Composite × UInt64} (hp : p ∈ w.enabledInjectors t u) :
    w.manager.numSons p.2 = p.1.sons.length := by
  obtain ⟨hc, hs, _⟩ := World.mem_enabledInjectors.mp hp
  have hid := (hw.strategy p.1 hc).symm.trans hs
  simp only [Option.some.injEq, Action.injectAction.injEq] at hid
  rw [← hid]
  exact hw.sons p.1 hc

section Start

variable {t : ParsedTree} {num : Nat → Nat} {w : World} {u : UInt64}
  (hprod : (t.root.orNodes.map fun c => c.sons.length).prod < 2 ^ 31)

include hprod

theorem sons_length_le {c : Composite} (hc : c ∈ t.root.orNodes) :
    (c.sons.length : Int) ≤ intMax := by
  have hle := Nat.le_of_dvd (prod_sons_pos t)
    (List.dvd_prod (List.mem_map.mpr ⟨c, hc, rfl⟩ : c.sons.length ∈ _))
  rw [intMax]
  omega

theorem runCount_le : w.runCount t u ≤ intMax := by
  have hdvd : ((w.enabledInjectors t u).map fun p => p.1.sons.length).prod ∣
      (t.root.orNodes.map fun c => c.sons.length).prod := by
    refine prod_filterMap_dvd (fun c p hp => ?_) _
    split at hp
    · split at hp
      · cases hp; rfl
      · cases hp
    · cases hp
  have hle : w.runCount t u ≤
      (((w.enabledInjectors t u).map fun p => p.1.sons.length).prod : Nat) := by
    rw [World.runCount, Nat.cast_list_prod, List.map_map]
    refine List.prod_map_le_prod_map₀ _ _ (fun p hp => ?_) (fun p _ => ?_)
    · have := World.one_le_sons hp
      omega
    · rw [Function.comp_apply]
      omega
  have := Nat.le_of_dvd (prod_sons_pos t) hdvd
  rw [intMax]
  omega

variable (hw : Numbered t num w)

include hw

/-- With every count known `getRun` counts the runs. -/
theorem countsFit : w.CountsFit t u := by
  refine ⟨runCount_le hprod, fun p hp => ?_, ?_⟩
  · have hpe := (List.mem_filter.mp hp).1
    exact sons_length_le hprod (World.mem_enabledInjectors.mp hpe).1
  · have hnil : w.pendingInjectors t u = [] := by
      refine List.filter_eq_nil_iff.mpr fun p hp => ?_
      rw [numSons_enabled hw hp, beq_iff_eq]
      omega
    rw [hnil]
    rfl

variable {slots : Slots} {extra : Nat} (hr : Registered t slots extra w)
  (hnum : Numbering t num) (hk : t.root.orNodes.length ≤ 31)

include hr hnum hk

/-- `getRun` puts the manager before the first run of the test case. -/
theorem getRun_numbered (hu : u.toNat < 2 ^ 32) :
    ∃ m ids size,
      w.manager.getRun w.generator u = .ok ((Odometer.total (ids.map size) : Nat), m) ∧
      CaseIds t w.generator num u.toNat ids size ∧ InBlock ids size 0 m ∧
      ∀ n, m.numSons n = w.manager.numSons n := by
  obtain ⟨m, hm⟩ := (hr.getRun_iff u).mpr (countsFit hprod hw)
  have hperm := hr.enabled_perm u
  let ids := (w.manager.enabled w.generator u).map Prod.fst
  have hcount : w.runCount t u = (Odometer.total (ids.map w.manager.wheel) : Nat) := by
    rw [Odometer.total, Nat.cast_list_prod, List.map_map, List.map_map,
      ((hperm.map _).prod_eq), List.map_map, World.runCount]
    refine congrArg _ (List.map_congr_left fun p hp => ?_)
    have hone := World.one_le_sons hp
    simp only [Function.comp_apply, TestCaseManager.wheel,
      numSons_enabled hw hp]
    omega
  refine ⟨m, ids, w.manager.wheel, hcount ▸ hm, ⟨?_, ?_, ?_⟩, ?_⟩
  · exact TestCaseManager.enabled_nodup _ _ _
  · intro n
    rw [hperm.mem_iff, List.mem_map]
    constructor
    · rintro ⟨⟨c, n⟩, hp, rfl⟩
      obtain ⟨hc, hs, henable⟩ := World.mem_enabledInjectors.mp hp
      have hid := (hw.strategy c hc).symm.trans hs
      simp only [Option.some.injEq, Action.injectAction.injEq] at hid
      refine ⟨c, hc, hid.symm, ?_⟩
      rw [← hid, enable_eq_turns _ hu (Numbered.lt_of_mem hnum hk hc)] at henable
      exact henable
    · rintro ⟨c, hc, rfl, hturn⟩
      refine ⟨(c, _), World.mem_enabledInjectors.mpr ⟨hc, hw.strategy c hc, ?_⟩, rfl⟩
      rw [enable_eq_turns _ hu (Numbered.lt_of_mem hnum hk hc)]
      exact hturn
  · intro c hc
    rw [TestCaseManager.wheel, hw.sons c hc, Int.toNat_natCast]
  · unfold TestCaseManager.getRun at hm
    split at hm
    · cases hm
    · simp only [Except.ok.injEq, Prod.mk.injEq] at hm
      obtain ⟨_, rfl⟩ := hm
      refine ⟨⟨rfl, ?_⟩, fun n => ?_⟩
      · have hones : Odometer.reading (ids.map w.manager.wheel) 0 = ids.map fun _ => 1 := by
          rw [Odometer.reading, Function.iterate_zero_apply, List.length_map, List.map_const']
        rw [hones]
        refine List.map_congr_left fun n hn => ?_
        obtain ⟨p, hp, rfl⟩ := List.mem_map.mp hn
        obtain ⟨hs, henable⟩ := TestCaseManager.mem_enabled.mp hp
        rw [TestCaseManager.digit]
        simp only [Std.TreeMap.getElem?_map, hs, Option.map_some, henable, if_true]
        rfl
      · refine TestCaseManager.numSons_congr ?_
        simp only [Std.TreeMap.getElem?_map, Option.map_map]
        refine congrArg₂ _ (funext fun s => ?_) rfl
        rw [Function.comp_apply]
        split <;> rfl

end Start

/-! ## The first test case -/

theorem World.selected_of_nil {w : World} (h : w.manager.testCaseState = []) (id : Nat) :
    w.selected id = 0 := by
  unfold World.selected
  split
  · rw [TestCaseManager.updateInjector_eq, h]
    exact if_neg List.not_mem_nil
  · rfl

theorem World.selection_of_nil {t : ParsedTree} {w : World}
    (h : w.manager.testCaseState = []) : w.selection t = t.root.orNodes.map fun _ => 0 :=
  List.map_congr_left fun c _ => World.selected_of_nil h c.id

theorem World.executed_congr {w w' : World} {c : Composite} (hstrategy : w'.strategy = w.strategy)
    (hsons : ∀ n, w'.manager.numSons n = w.manager.numSons n) :
    w'.executed c = w.executed c := by
  unfold World.executed
  simp only [hstrategy, hsons]

/-- No injector is enabled in test case `0`. -/
theorem getRun_baseline {t : ParsedTree} {slots : Slots} {w : World}
    (hr : Registered t slots 0 w) (hk : t.root.orNodes.length ≤ 31) :
    ∃ m, w.manager.getRun w.generator 0 = .ok (1, m) ∧ m.testCaseState = [] := by
  have hnil : w.manager.enabled w.generator 0 = [] := by
    refine List.eq_nil_iff_forall_not_mem.mpr fun p hp => ?_
    obtain ⟨hs, hu⟩ := TestCaseManager.mem_enabled.mp hp
    obtain ⟨c, _, j, hj, hid, _⟩ := hr.observer p.1 p.2 hs
    have hlt : j < 31 := lt_of_lt_of_le (hr.bound _ hj) (hr.slots_length_le.trans hk)
    rw [hid, enable_eq_turns _ (by decide) hlt, UInt64.toNat_zero, turns_zero] at hu
    cases hu
  unfold TestCaseManager.getRun
  rw [hnil]
  exact ⟨_, rfl, rfl⟩

namespace Main

/-- The states up to the end of the first test case. -/
structure InBaseline (t : ParsedTree) (m : Main) : Prop where
  u64 : m.u64 = 0
  numberInjector : m.numberInjector = 1
  phase : match m.phase with
    | .outer => m.runs = []
    | .inner numRun i => numRun = 1 ∧ m.world.manager.testCaseState = [] ∧
        (i = 0 ∧ m.runs = [] ∨ i = 1 ∧ m.selections t = [t.root.orNodes.map fun _ => 0] ∧
          ∀ c ∈ t.root.orNodes, m.world.executed c = true)
    | .finished => False

/-- The states after the first test case. -/
structure InSchedule (t : ParsedTree) (g : TSGenerator) (num : Nat → Nat) (m : Main) : Prop where
  numbered : Numbered t num m.world
  started : 1 ≤ m.u64.toNat
  bound : m.numberInjector.toNat = numCases g t.root.orNodes.length
  phase : match m.phase with
    | .outer => m.u64.toNat ≤ numCases g t.root.orNodes.length ∧
        Covers t g num m.u64.toNat (m.selections t)
    | .inner numRun i => ∃ vs ids size, ∃ j : Nat, i = j ∧
        numRun = (Odometer.total (ids.map size) : Nat) ∧ j ≤ Odometer.total (ids.map size) ∧
        Covers t g num m.u64.toNat vs ∧ CaseIds t g num m.u64.toNat ids size ∧
        InBlock ids size j m.world.manager ∧
        m.selections t = vs ++ (List.range j).map (caseVector t g num ids size)
    | .finished => Covers t g num (numCases g t.root.orNodes.length) (m.selections t)

/-- What the runs have selected in every state of a campaign. -/
def Covering (t : ParsedTree) (g : TSGenerator) (m : Main) : Prop :=
  InBaseline t m ∨ ∃ num, Numbering t num ∧ InSchedule t g num m

section Steps

variable {P : Platform} {t : ParsedTree} {g : TSGenerator} {e : Env} {m m' : Main}
  (hk : t.root.orNodes.length ≤ 31)

theorem InBaseline.valid (h : InBaseline t m) (hi : Inv t g m) : m.world.Valid t 0 := by
  cases hi.stage with
  | inl hs => exact hs.1
  | inr hs =>
      have hle := hs.2
      rw [h.u64] at hle
      exact absurd hle (by decide)

include hk

theorem InBaseline.enter (hi : Inv t g m) (h : InBaseline t m) (hphase : m.phase = .outer) :
    ∃ m', m.enterTestCase = .ok m' ∧ InBaseline t m' := by
  obtain ⟨slots, hr⟩ := h.valid hi
  obtain ⟨manager, hrun, hnil⟩ := getRun_baseline hr hk
  have hruns := h.phase
  rw [hphase] at hruns
  have hlt : m.u64 < m.numberInjector := by
    rw [h.u64, h.numberInjector]
    decide
  refine ⟨{ m with phase := .inner 1 0, world := { m.world with manager := manager } }, ?_,
    ⟨h.u64, h.numberInjector, ⟨rfl, hnil, .inl ⟨rfl, hruns⟩⟩⟩⟩
  unfold enterTestCase
  rw [if_pos hlt, h.u64, hrun]

omit hk in
/-- The states of a successful run. -/
theorem runOnce_ok {numRun i : Int} (hm : m.runOnce P t numRun i = .ok m')
    {extra : Nat} (hw : m.world.Valid t extra) :
    ∃ w e r, m.world.Grows w ∧
      m' = { m with
        phase := .inner numRun (i + 1)
        world := { (HasEnv.withEnv w e : World) with manager := w.manager.updateInjectorState }
        runs := m.runs ++ [⟨m.u64, i, w, r⟩] } := by
  unfold runOnce at hm
  split at hm
  · cases hm
  · next result w hrun =>
      split at hm
      · cases hm
      · next w' hprep =>
          cases hm
          obtain ⟨e, rfl⟩ := World.prepareNextTestCase_ok hprep
          exact ⟨w, e, result, (World.runTest_visited hw hrun).grows, rfl⟩

omit hk in
theorem InBaseline.run (hbase : BaselineExecutesAll P t g e) (hi : Inv t g m)
    (h : InBaseline t m) {numRun i : Int} (hphase : m.phase = .inner numRun i)
    (hlt : i < numRun) (hm : m.runOnce P t numRun i = .ok m') (hreach : Reachable P t g e m') :
    InBaseline t m' := by
  obtain ⟨extra, hw⟩ := hi.valid
  obtain ⟨w, env, r, hg, rfl⟩ := runOnce_ok hm hw
  have hp := h.phase
  rw [hphase] at hp
  obtain ⟨rfl, hnil, hrest⟩ := hp
  obtain ⟨rfl, hruns⟩ : i = 0 ∧ m.runs = [] := by
    cases hrest with
    | inl h0 => exact h0
    | inr h1 => omega
  have hnil' : w.manager.testCaseState = [] := hg.testCaseState.trans hnil
  refine ⟨h.u64, h.numberInjector, ⟨rfl, ?_, .inr ⟨rfl, ?_, ?_⟩⟩⟩
  · exact (TestCaseManager.increaseStates_frame _ _).1.trans hnil'
  · simp only [selections, hruns, List.nil_append, List.map_cons, List.map_nil,
      World.selection_of_nil hnil']
  · intro c hc
    have hexec := hbase _ hreach ⟨m.u64, 0, w, r⟩ (by simp) h.u64 c hc
    refine Eq.trans (World.executed_congr ?_ ?_) (hexec : w.executed c = true)
    · rfl
    · exact TestCaseManager.numSons_updateInjectorState w.manager

variable (hprod : (t.root.orNodes.map fun c => c.sons.length).prod < 2 ^ 31)

include hprod

/-- `main` fixes its bound when every injector has its number. -/
theorem InBaseline.leave (hi : Inv t g m) (h : InBaseline t m) {numRun i : Int}
    (hphase : m.phase = .inner numRun i) (hge : ¬ i < numRun) :
    ∃ num, Numbering t num ∧ InSchedule t g num m.leaveTestCase := by
  obtain ⟨slots, hr⟩ := h.valid hi
  have hp := h.phase
  rw [hphase] at hp
  obtain ⟨rfl, _, hrest⟩ := hp
  obtain ⟨_, hsel, hexec⟩ := hrest.resolve_left (fun h0 => hge (by omega))
  obtain ⟨num, hnum, hw⟩ :=
    hr.numbered hk (fun c hc => sons_length_le hprod hc) hexec
  have hlen : slots.length = t.root.orNodes.length := by
    refine le_antisymm hr.slots_length_le ?_
    have hsub : t.root.orNodes.map Composite.id ⊆ slots.map Prod.fst := by
      intro id hid
      obtain ⟨c, hc, rfl⟩ := List.mem_map.mp hid
      obtain ⟨j, hj, _⟩ := hr.slot_of_strategy hc (hw.strategy c hc)
      exact List.mem_map.mpr ⟨_, hj, rfl⟩
    have := (List.subperm_of_subset t.orNodes_nodup hsub).length_le
    simpa using this
  refine ⟨num, hnum, ?_⟩
  unfold leaveTestCase
  rw [if_pos h.numberInjector]
  refine ⟨hw.of_eq rfl rfl fun _ => rfl, ?_, ?_, ?_, ?_⟩
  · rw [h.u64]
    exact le_refl 1
  · change (m.world.generator.getNextInjectionId m.world.nextInjectionId).1.toNat = _
    rw [hr.next, Nat.add_zero, hlen, ← nextInjectionId_eq_numCases g hk, hi.generator]
    exact congrArg _ (TSGenerator.injectionId_eq g _)
  · rw [h.u64]
    cases g with
    | exp => exact Nat.one_le_two_pow
    | seq => exact Nat.succ_le_succ (Nat.zero_le _)
  · rw [h.u64]
    change Covers t g num 1 (m.selections t)
    rw [hsel]
    refine covers_zero.append hnum ?_ (List.nodup_singleton _) fun v => ?_
    · cases g with
      | exp => exact Nat.two_pow_pos _
      | seq => exact Nat.succ_pos _
    · rw [List.mem_singleton, InCase, forall₂_orNodes]
      simp only [turns_zero, Bool.false_eq_true, iff_false, Decidable.not_not]
      constructor
      · rintro rfl
        refine ⟨fun _ => 0, rfl, fun c hc => ⟨?_, rfl⟩⟩
        exact Nat.lt_of_lt_of_le Nat.zero_lt_two (t.alternatives c hc)
      · rintro ⟨f, rfl, hf⟩
        exact List.map_congr_left fun c hc => (hf c hc).2

variable {num : Nat → Nat} (hnum : Numbering t num)

include hnum

theorem InSchedule.enter (hi : Inv t g m) (h : InSchedule t g num m)
    (hphase : m.phase = .outer) : ∃ m', m.enterTestCase = .ok m' ∧ InSchedule t g num m' := by
  have hp := h.phase
  rw [hphase] at hp
  obtain ⟨hle, hcovers⟩ := hp
  by_cases hlt : m.u64 < m.numberInjector
  · obtain ⟨_, slots, hr⟩ := hi.valid
    have hu : m.u64.toNat < 2 ^ 32 := hle.trans_lt (numCases_lt g hk)
    obtain ⟨manager, ids, size, hrun, hids, hblock, hsons⟩ :=
      getRun_numbered hprod h.numbered hr hnum hk hu
    rw [hi.generator] at hids
    refine ⟨{ m with
      phase := .inner (Odometer.total (ids.map size) : Nat) 0
      world := { m.world with manager := manager } }, ?_, ?_, h.started, h.bound, ?_⟩
    · unfold enterTestCase
      rw [if_pos hlt, hrun]
    · exact h.numbered.of_eq rfl rfl hsons
    · exact ⟨_, ids, size, 0, rfl, rfl, Nat.zero_le _, hcovers, hids, hblock, by simp; rfl⟩
  · refine ⟨{ m with phase := .finished }, ?_, h.numbered, h.started, h.bound, ?_⟩
    · unfold enterTestCase
      rw [if_neg hlt]
    · have hge : numCases g t.root.orNodes.length ≤ m.u64.toNat := by
        rw [← h.bound]
        exact Nat.not_lt.mp (fun hn => hlt (UInt64.lt_iff_toNat_lt.mpr hn))
      have heq := le_antisymm hle hge
      rw [heq] at hcovers
      exact hcovers

omit hprod in
theorem InSchedule.run (hi : Inv t g m) (h : InSchedule t g num m) {numRun i : Int}
    (hphase : m.phase = .inner numRun i) (hlt : i < numRun)
    (hm : m.runOnce P t numRun i = .ok m') : InSchedule t g num m' := by
  obtain ⟨extra, hw⟩ := hi.valid
  obtain ⟨w, env, r, hg, rfl⟩ := runOnce_ok hm hw
  have hp := h.phase
  rw [hphase] at hp
  obtain ⟨vs, ids, size, j, rfl, rfl, hj, hcovers, hids, hblock, hsel⟩ := hp
  have hgen : w.generator = g := hg.generator.trans hi.generator
  have hnumbered : Numbered t num w := h.numbered.grows hnum hk hg
  have hblock' : InBlock ids size j w.manager :=
    hblock.grows hnum hk hi.generator h.numbered hids hg
  refine ⟨?_, h.started, h.bound, vs, ids, size, j + 1, rfl, rfl, by omega, hcovers, hids, ?_, ?_⟩
  · exact hnumbered.of_eq rfl rfl (TestCaseManager.numSons_updateInjectorState _)
  · exact hblock'.updateInjectorState hgen hnumbered hids
  · change (m.runs ++ [_]).map _ = _
    rw [List.map_append]
    change m.selections t ++ [w.selection t] = _
    rw [hsel, selection_eq hgen hnumbered hblock', List.range_succ, List.map_append,
      List.append_assoc]
    rfl

omit hprod in
theorem InSchedule.leave (hi : Inv t g m) (h : InSchedule t g num m) {numRun i : Int}
    (hphase : m.phase = .inner numRun i) (hge : ¬ i < numRun) :
    InSchedule t g num m.leaveTestCase := by
  have hlt := hi.inner _ _ hphase
  have hne : m.numberInjector ≠ 1 := by
    intro hone
    have := h.started
    rw [UInt64.lt_iff_toNat_lt, hone, UInt64.toNat_one] at hlt
    omega
  have hp := h.phase
  rw [hphase] at hp
  obtain ⟨vs, ids, size, j, rfl, rfl, hj, hcovers, hids, hblock, hsel⟩ := hp
  have htotal : j = Odometer.total (ids.map size) := by omega
  have hbound : m.u64.toNat < numCases g t.root.orNodes.length := by
    rw [← h.bound]
    exact UInt64.lt_iff_toNat_lt.mp hlt
  unfold leaveTestCase
  rw [if_neg hne]
  refine ⟨h.numbered, ?_, h.bound, ?_, ?_⟩
  · rw [succ_toNat hlt]
    omega
  · rw [succ_toNat hlt]
    exact hbound
  · rw [succ_toNat hlt]
    change Covers t g num (m.u64.toNat + 1) (m.selections t)
    rw [hsel, htotal]
    exact hcovers.append hnum hbound hids.caseVectors_nodup (hids.mem_caseVectors hnum hk)

end Steps

/-- The loops are over, or a run of the tree ends the program. -/
def Stops (P : Platform) (t : ParsedTree) (m : Main) : Prop :=
  m.phase = .finished ∨
    ∃ numRun i x, m.phase = .inner numRun i ∧ i < numRun ∧ m.runOnce P t numRun i = .error x

section Campaign

variable {P : Platform} {t : ParsedTree} {g : TSGenerator} {e : Env} {m m' : Main}
  (hk : t.root.orNodes.length ≤ 31)
  (hprod : (t.root.orNodes.map fun c => c.sons.length).prod < 2 ^ 31)

include hk hprod

/-- Every step keeps the account of the vectors. -/
theorem Covering.step (hbase : BaselineExecutesAll P t g e) (hi : Inv t g m)
    (h : Covering t g m) (hm : m.step P t = .ok m') (hreach : Reachable P t g e m') :
    Covering t g m' := by
  unfold Main.step at hm
  split at hm
  · next hphase =>
      cases h with
      | inl hb =>
          obtain ⟨m'', hok, hb'⟩ := hb.enter hk hi hphase
          rw [hm] at hok
          cases hok
          exact .inl hb'
      | inr hs =>
          obtain ⟨num, hnum, hs⟩ := hs
          obtain ⟨m'', hok, hs'⟩ := hs.enter hk hprod hnum hi hphase
          rw [hm] at hok
          cases hok
          exact .inr ⟨num, hnum, hs'⟩
  · next numRun i hphase =>
      split at hm
      · next hlt =>
          cases h with
          | inl hb => exact .inl (hb.run hbase hi hphase hlt hm hreach)
          | inr hs =>
              obtain ⟨num, hnum, hs⟩ := hs
              exact .inr ⟨num, hnum, hs.run hk hnum hi hphase hlt hm⟩
      · next hge =>
          cases hm
          cases h with
          | inl hb => exact .inr (hb.leave hk hprod hi hphase hge)
          | inr hs =>
              obtain ⟨num, hnum, hs⟩ := hs
              exact .inr ⟨num, hnum, hs.leave hk hnum hi hphase hge⟩
  · cases hm
    exact h

variable (hbase : BaselineExecutesAll P t g e)

include hbase

theorem Reachable.covering (h : Reachable P t g e m) : Covering t g m := by
  induction h with
  | refl => exact .inl ⟨rfl, rfl, rfl⟩
  | tail hreach hstep ih =>
      exact ih.step hk hprod hbase (Reachable.inv hreach) hstep (hreach.tail hstep)

omit hk hprod hbase in
/-- A test case comes to its end. -/
theorem inner_stops (d : Nat) {numRun i : Int} (hreach : Reachable P t g e m)
    (hphase : m.phase = .inner numRun i) (hd : (numRun - i).toNat = d) :
    ∃ m', Relation.ReflTransGen (Step P t) m m' ∧
      (Stops P t m' ∨ m'.phase = .outer ∧ m'.u64 = m.u64 + 1) := by
  induction d generalizing m i with
  | zero =>
      have hstep : Step P t m m.leaveTestCase := by
        unfold Step Main.step
        rw [hphase]
        simp only
        rw [if_neg (by omega)]
      refine ⟨_, .single hstep, .inr ?_⟩
      unfold leaveTestCase
      split
      · exact ⟨rfl, rfl⟩
      · exact ⟨rfl, rfl⟩
  | succ d ih =>
      have hlt : i < numRun := by omega
      cases hrun : m.runOnce P t numRun i with
      | error x => exact ⟨m, .refl, .inl (.inr ⟨numRun, i, x, hphase, hlt, hrun⟩)⟩
      | ok m₁ =>
          have hstep : Step P t m m₁ := by
            unfold Step Main.step
            rw [hphase]
            simp only
            rw [if_pos hlt, hrun]
          obtain ⟨_, hw⟩ := hreach.inv.valid
          obtain ⟨w, env, r, _, rfl⟩ := runOnce_ok hrun hw
          obtain ⟨m', hsteps, hm'⟩ := ih (hreach.tail hstep) rfl (by omega)
          exact ⟨m', .head hstep hsteps, hm'⟩

omit hk hprod hbase in
/-- The test cases that `main` enters are those of the generator. -/
theorem Covering.lt_numCases (h : Covering t g m) (hlt : m.u64 < m.numberInjector) :
    m.u64.toNat < numCases g t.root.orNodes.length := by
  cases h with
  | inl hb =>
      rw [hb.u64]
      cases g with
      | exp => exact Nat.two_pow_pos _
      | seq => exact Nat.succ_pos _
  | inr hs =>
      obtain ⟨num, _, hs⟩ := hs
      rw [← hs.bound]
      exact UInt64.lt_iff_toNat_lt.mp hlt

omit hbase in
theorem Covering.enter (h : Covering t g m) (hi : Inv t g m) (hphase : m.phase = .outer) :
    ∃ m', m.enterTestCase = .ok m' := by
  cases h with
  | inl hb =>
      obtain ⟨m', hm', _⟩ := hb.enter hk hi hphase
      exact ⟨m', hm'⟩
  | inr hs =>
      obtain ⟨num, hnum, hs⟩ := hs
      obtain ⟨m', hm', _⟩ := hs.enter hk hprod hnum hi hphase
      exact ⟨m', hm'⟩

/-- The loops come to their end from every test of the outer one. -/
theorem outer_stops (d : Nat) (hreach : Reachable P t g e m) (hphase : m.phase = .outer)
    (hd : numCases g t.root.orNodes.length - m.u64.toNat = d) :
    ∃ m', Relation.ReflTransGen (Step P t) m m' ∧ Stops P t m' := by
  induction d using Nat.strong_induction_on generalizing m with
  | _ d ih =>
      have hcov := hreach.covering hk hprod hbase
      obtain ⟨m₁, henter⟩ := hcov.enter hk hprod hreach.inv hphase
      have hstep : Step P t m m₁ := by
        unfold Step Main.step
        rw [hphase]
        exact henter
      by_cases hlt : m.u64 < m.numberInjector
      · have hcase := hcov.lt_numCases hlt
        obtain ⟨hu, numRun, hinner⟩ : m₁.u64 = m.u64 ∧ ∃ numRun, m₁.phase = .inner numRun 0 := by
          unfold enterTestCase at henter
          rw [if_pos hlt] at henter
          split at henter
          · cases henter
          · next numRun manager _ =>
              cases henter
              exact ⟨rfl, numRun, rfl⟩
        obtain ⟨m₂, hsteps, hm₂⟩ := inner_stops _ (hreach.tail hstep) hinner rfl
        cases hm₂ with
        | inl hstops => exact ⟨m₂, .head hstep hsteps, hstops⟩
        | inr houter =>
            obtain ⟨hphase₂, hu₂⟩ := houter
            have hnat : m₂.u64.toNat = m.u64.toNat + 1 := by rw [hu₂, hu, succ_toNat hlt]
            have hreach₂ : Reachable P t g e m₂ := (hreach.tail hstep).trans hsteps
            obtain ⟨m₃, hsteps₃, hstops⟩ := ih _ (by omega) hreach₂ hphase₂ rfl
            exact ⟨m₃, .head hstep (hsteps.trans hsteps₃), hstops⟩
      · unfold enterTestCase at henter
        rw [if_neg hlt] at henter
        cases henter
        exact ⟨_, .single hstep, .inl rfl⟩

end Campaign

/-- When the first run of a campaign executes every injector, the loops come to
their end unless a run of the tree does, and then every vector the generator
schedules was selected in exactly one run, and no other vector was. -/
theorem campaign_covers (P : Platform) (t : ParsedTree) (g : TSGenerator) (e : Env)
    (hk : t.root.orNodes.length ≤ 31)
    (hprod : (t.root.orNodes.map fun c => c.sons.length).prod < 2 ^ 31)
    (hbase : BaselineExecutesAll P t g e) :
    (∃ m, Reachable P t g e m ∧ Stops P t m) ∧
    ∀ m, Reachable P t g e m → m.phase = .finished →
      (m.selections t).Nodup ∧ ∀ v, v ∈ m.selections t ↔ Scheduled t g v := by
  refine ⟨?_, fun m hreach hphase => ?_⟩
  · exact outer_stops hk hprod hbase _ .refl rfl rfl
  · cases hreach.covering hk hprod hbase with
    | inl hb =>
        have hp := hb.phase
        rw [hphase] at hp
        exact hp.elim
    | inr hs =>
        obtain ⟨num, hnum, hs⟩ := hs
        have hp := hs.phase
        rw [hphase] at hp
        refine ⟨hp.1, fun v => ?_⟩
        rw [hp.2, scheduled_iff hnum]

/-! ## Campaigns that come to their end -/

/-- A run of the world is a run of `eval` with the alternatives that the world selects. -/
theorem Reachable.obeys {P : Platform} {t : ParsedTree} {g : TSGenerator} {e : Env} {m : Main}
    (h : Reachable P t g e m) : ∀ r ∈ m.runs, r.Obeys P t := by
  induction h with
  | refl => exact List.forall_mem_nil _
  | @tail m m' hreach hstep ih =>
      obtain ⟨_, hruns⟩ | ⟨i, w, s, hrun, _, hruns⟩ := step_env hstep
      · rw [hruns]
        exact ih
      · obtain ⟨_, hw⟩ := (Reachable.inv hreach).valid
        have hagree := runTest_agree (P := P) hw (Composite.mem_nodes_self t.root)
        have hobeys : Run.Obeys P t ⟨m.u64, i, w, s⟩ := by
          rw [hrun] at hagree
          cases heval : eval P m.world.selected t.root m.world.env with
          | error x => rw [heval] at hagree; exact hagree.elim
          | ok p =>
              rw [heval] at hagree
              obtain ⟨hs, hin⟩ := hagree
              refine ⟨m.world.env, ?_⟩
              rw [funext hin.visited.grows.selected, heval, hs, hin.env]
        rw [hruns]
        exact List.forall_mem_append.mpr ⟨ih, List.forall_mem_singleton.mpr hobeys⟩

/-- Every vector that the generator schedules is selected in exactly one run, and no other
vector is. -/
def SelectsSchedule (P : Platform) (t : ParsedTree) (g : TSGenerator) (e : Env) : Prop :=
  ∃ m, Reachable P t g e m ∧ m.phase = .finished ∧ (∀ r ∈ m.runs, r.Obeys P t) ∧
    (m.selections t).Nodup ∧ ∀ v, v ∈ m.selections t ↔ Scheduled t g v

/-- No run of the tree ends the program, and no `prepareNextTestCase` behind it. -/
def RunsReturn (P : Platform) (t : ParsedTree) (g : TSGenerator) (e : Env) : Prop :=
  ∀ m, Reachable P t g e m → ∀ numRun i, m.phase = .inner numRun i → i < numRun →
    ∃ m', m.runOnce P t numRun i = .ok m'

/-- A campaign that comes to its end has come through every state that it reaches. -/
theorem Reachable.runsReturn {P : Platform} {t : ParsedTree} {g : TSGenerator} {e : Env}
    {m : Main} (h : Reachable P t g e m) (hphase : m.phase = .finished) :
    RunsReturn P t g e := by
  intro m₁ hreach numRun i hinner hlt
  have hne : m₁ ≠ m := by
    rintro rfl
    rw [hphase] at hinner
    cases hinner
  obtain hrun | hrun := Relation.ReflTransGen.total_of_right_unique step_unique hreach h
  · obtain heq | ⟨m₂, hstep, _⟩ := hrun.cases_head
    · exact absurd heq hne
    · refine ⟨m₂, ?_⟩
      rw [Step, step, hinner] at hstep
      simp only at hstep
      rwa [if_pos hlt] at hstep
  · exact absurd (eq_of_finished hphase hrun) hne

/-- When the first run of a campaign executes every injector, the campaign selects what the
generator schedules if and only if none of its runs ends the program. -/
theorem campaign_covers_iff (P : Platform) (t : ParsedTree) (g : TSGenerator) (e : Env)
    (hk : t.root.orNodes.length ≤ 31)
    (hprod : (t.root.orNodes.map fun c => c.sons.length).prod < 2 ^ 31)
    (hbase : BaselineExecutesAll P t g e) :
    SelectsSchedule P t g e ↔ RunsReturn P t g e := by
  constructor
  · rintro ⟨m, hreach, hphase, _⟩
    exact hreach.runsReturn hphase
  · intro hreturn
    obtain ⟨⟨m, hreach, hstops⟩, hcovers⟩ := campaign_covers P t g e hk hprod hbase
    obtain hphase | ⟨numRun, i, x, hinner, hlt, hfault⟩ := hstops
    · exact ⟨m, hreach, hphase, hreach.obeys, hcovers m hreach hphase⟩
    · obtain ⟨m', hok⟩ := hreturn m hreach numRun i hinner hlt
      rw [hfault] at hok
      cases hok

/-- An alternative of three, as in `r = "a" / "b" / "c"`. -/
def threeLetters : ParsedTree where
  root := .node .composite 0 (ascii "r")
    [.node .orComposite 1 (ascii "/")
      [.leaf .stringLeaf 2 (ascii "\\\"a\\\""), .leaf .stringLeaf 3 (ascii "\\\"b\\\""),
       .leaf .stringLeaf 4 (ascii "\\\"c\\\"")]]
  nodup := by decide
  sons_ne_nil := by decide
  alternatives := by decide
  size := by decide

theorem campaign_covers_iff_threeLetters : SelectsSchedule ⟨id, 0⟩ threeLetters .seq {} := by
  have hfinished : (after ⟨id, 0⟩ threeLetters 8 (start threeLetters .seq {})).phase =
      .finished := by decide
  refine (campaign_covers_iff ⟨id, 0⟩ threeLetters .seq {} (by decide) (by decide) ?_).mpr
    (Reachable.runsReturn (reachable_after _ _ _ _ _) hfinished)
  intro m hreach
  obtain ⟨n, hn, rfl⟩ := reachable_after_le 8 (by decide) hreach
  clear hreach
  revert n
  decide

/-- `r = a b`, where `a` stores a text under the name `v`, and `b` loads what is stored under
one of three names: `a = <%Memorize%> "v" "x"` and `b = <%Variable%> "v" / "w" / "u"`. -/
def threeNames : ParsedTree where
  root := .node .composite 0 (ascii "r")
    [.node .composite 1 (ascii "a")
      [.leaf .commandComposite 2 (ascii "<%Memorize%>"),
       .leaf .stringLeaf 3 (ascii "\\\"v\\\""), .leaf .stringLeaf 4 (ascii "\\\"x\\\"")],
     .node .composite 5 (ascii "b")
      [.leaf .commandComposite 6 (ascii "<%Variable%>"),
       .node .orComposite 7 (ascii "/")
        [.leaf .stringLeaf 8 (ascii "\\\"v\\\""), .leaf .stringLeaf 9 (ascii "\\\"w\\\""),
         .leaf .stringLeaf 10 (ascii "\\\"u\\\"")]]]
  nodup := by decide
  sons_ne_nil := by decide
  alternatives := by decide
  size := by decide

/-- The states of a campaign of `threeNames`.  The run with `w` ends the program, since the name
is not set and there is no frame to take the variable from. -/
theorem reachable_threeNames {m : Main} (h : Reachable ⟨id, 0⟩ threeNames .seq {} m) :
    ∃ n ≤ 4, m = after ⟨id, 0⟩ threeNames n (start threeNames .seq {}) := by
  refine reachable_after_of_last 4 (fun m' hstep => ?_) h
  have hfault : (step ⟨id, 0⟩ threeNames
      (after ⟨id, 0⟩ threeNames 4 (start threeNames .seq {}))).isOk = false := by decide
  rw [show step _ _ _ = _ from hstep] at hfault
  cases hfault

/-- The first run of `threeNames` executes its injector, but the campaign does not come to its
end. -/
theorem unset_name_ends_campaign :
    ¬ ∀ (P : Platform) (t : ParsedTree) (g : TSGenerator) (e : Env),
      t.root.orNodes.length ≤ 31 →
        (t.root.orNodes.map fun c => c.sons.length).prod < 2 ^ 31 →
          BaselineExecutesAll P t g e → SelectsSchedule P t g e := by
  intro hall
  have hbase : BaselineExecutesAll ⟨id, 0⟩ threeNames .seq {} := by
    intro m hreach
    obtain ⟨n, hn, rfl⟩ := reachable_threeNames hreach
    clear hreach
    revert n
    decide
  obtain ⟨m, hreach, hphase, hcovers⟩ :=
    hall ⟨id, 0⟩ threeNames .seq {} (by decide) (by decide) hbase
  obtain ⟨n, hn, rfl⟩ := reachable_threeNames hreach
  clear hreach hcovers
  revert n
  decide

end Main

end Stress

import Stress.World
import Mathlib.Data.List.Perm.Subperm

/-!
# Registered injectors

What holds of the strategies and of the manager in every world a program run
passes through.  `slots` records which call of `getNextInjectionId` gave each
registered `OrComposite` its id.  The calls are numbered from `0`.  Every call
serves one node, except the one `main` makes to fix its bound, which `extra`
counts.

`Registered` is kept by everything that touches a world: the creation of a
strategy, the answer of the manager to an injector, and the moves of `main`
between two runs.  Inside a run a world moreover only grows (`Grows`), and the
alternatives it selects stay the same.
-/

namespace Stress

/-- The calls of `getNextInjectionId` that served a node. -/
abbrev Slots := List (Nat × Nat)

/-- The manager's entry for an injector fits some node with that id. -/
def EntryFits (t : ParsedTree) (g : TSGenerator) (slots : Slots) (n : UInt64) (s : InjectState) :
    Prop :=
  ∃ c ∈ t.root.orNodes, ∃ j, (c.id, j) ∈ slots ∧ n = g.injectionId j ∧
    (s.numSons = -1 ∨ s.numSons = toInt32 c.sons.length) ∧
    1 ≤ s.last ∧ (s.last = 1 ∨ (s.last : Int) < s.numSons)

/-- The strategies, the factory and the manager of a world belong together. -/
structure Registered (t : ParsedTree) (slots : Slots) (extra : Nat) (w : World) : Prop where
  ids : (slots.map Prod.fst).Nodup
  calls : (slots.map Prod.snd).Nodup
  bound : ∀ p ∈ slots, p.2 < slots.length + extra
  extra_le : extra ≤ 1
  orNodes : ∀ p ∈ slots, p.1 ∈ t.root.orNodes.map Composite.id
  next : w.nextInjectionId = w.generator.nextInjectionId (slots.length + extra)
  injector : ∀ c ∈ t.root.orNodes, w.strategy c.id =
    (slots.lookup c.id).map fun j => .injectAction (w.generator.injectionId j)
  strategy : ∀ c ∈ t.root.nodes, ∀ kind id name sons, c = .node kind id name sons →
    kind ≠ .orComposite → w.strategy id = none ∨ w.strategy id = some (strategyOf kind sons)
  observer : ∀ (n : UInt64) s, w.manager.observer[n]? = some s →
    EntryFits t w.generator slots n s
  registered : ∀ p ∈ slots, (w.manager.observer[w.generator.injectionId p.2]?).isSome
  enabled : ∀ n ∈ w.manager.testCaseState,
    (∃ u, w.generator.enable u n = true) ∧ ∃ p ∈ slots, n = w.generator.injectionId p.2

/-- What a run may change in a world: new strategies and new entries appear, and
the entry of an injector that was executed stays. -/
structure World.Grows (w w' : World) : Prop where
  generator : w'.generator = w.generator
  testCaseState : w'.manager.testCaseState = w.manager.testCaseState
  strategy : ∀ id a, w.strategy id = some a → w'.strategy id = some a
  executed : ∀ (n : UInt64) s, (∃ u, w.generator.enable u n = true) →
    w.manager.observer[n]? = some s → 0 ≤ s.numSons → w'.manager.observer[n]? = some s
  selected : ∀ id, w'.selected id = w.selected id

namespace World.Grows

theorem refl (w : World) : w.Grows w :=
  ⟨rfl, rfl, fun _ _ h => h, fun _ _ _ h _ => h, fun _ => rfl⟩

theorem trans {w w' w'' : World} (h : w.Grows w') (h' : w'.Grows w'') : w.Grows w'' where
  generator := h'.generator.trans h.generator
  testCaseState := h'.testCaseState.trans h.testCaseState
  strategy id a ha := h'.strategy id a (h.strategy id a ha)
  executed n s hu hs hnum :=
    h'.executed n s (h.generator ▸ hu) (h.executed n s hu hs hnum) hnum
  selected id := (h'.selected id).trans (h.selected id)

/-- The environment is free. -/
theorem withEnv (w : World) (e : Env) : w.Grows (HasEnv.withEnv w e) :=
  ⟨rfl, rfl, fun _ _ h => h, fun _ _ _ h _ => h, fun _ => rfl⟩

end World.Grows

namespace Registered

variable {t : ParsedTree} {slots : Slots} {extra : Nat} {w : World}

/-- The world the program starts with. -/
theorem initial (t : ParsedTree) (g : TSGenerator) (e : Env) :
    Registered t [] 0 { generator := g, env := e } where
  ids := .nil
  calls := .nil
  bound := nofun
  extra_le := Nat.zero_le 1
  orNodes := nofun
  next := rfl
  injector _ _ := rfl
  strategy _ _ _ _ _ _ _ _ := .inl rfl
  observer n s hs := by
    have hempty : (∅ : Std.TreeMap UInt64 InjectState)[n]? = none := by simp
    exact absurd (hempty.symm.trans hs) (fun he => nomatch he)
  registered := nofun
  enabled := nofun

theorem withEnv (h : Registered t slots extra w) (e : Env) :
    Registered t slots extra (HasEnv.withEnv w e) :=
  ⟨h.ids, h.calls, h.bound, h.extra_le, h.orNodes, h.next, h.injector, h.strategy, h.observer,
    h.registered, h.enabled⟩

/-! ## Slots -/

theorem slots_length_le (h : Registered t slots extra w) :
    slots.length ≤ t.root.orNodes.length := by
  have hsub : slots.map Prod.fst ⊆ t.root.orNodes.map Composite.id := by
    intro id hid
    obtain ⟨p, hp, rfl⟩ := List.mem_map.mp hid
    exact h.orNodes p hp
  have := (List.subperm_of_subset h.ids hsub).length_le
  simpa using this

theorem slot_lt (h : Registered t slots extra w) {j : Nat} (hj : j ≤ slots.length + extra) :
    j < 2 ^ 64 := by
  have := h.slots_length_le
  have := t.orNodes_length_lt
  have := h.extra_le
  omega

theorem mem_of_lookup {id j : Nat} (h : slots.lookup id = some j) : (id, j) ∈ slots := by
  obtain ⟨l₁, l₂, hl, _⟩ := List.lookup_eq_some_iff.mp h
  rw [hl]
  simp

theorem lookup_of_mem (h : Registered t slots extra w) {id j : Nat} (hm : (id, j) ∈ slots) :
    slots.lookup id = some j := by
  cases hl : slots.lookup id with
  | none =>
      have := List.lookup_eq_none_iff.mp hl (id, j) hm
      simp at this
  | some k =>
      have hinj := List.inj_on_of_nodup_map h.ids (mem_of_lookup hl) hm rfl
      simp only [Prod.mk.injEq, true_and] at hinj
      rw [hinj]

/-- An id that a test case can enable belongs to one call. -/
theorem slot_eq (h : Registered t slots extra w) {i j : Nat} {u : UInt64}
    (hi : i ≤ slots.length + extra) (hj : j ≤ slots.length + extra)
    (hu : w.generator.enable u (w.generator.injectionId j) = true)
    (he : w.generator.injectionId i = w.generator.injectionId j) : i = j :=
  TSGenerator.injectionId_injective_of_enable (h.slot_lt hi) (h.slot_lt hj) hu he

theorem slot_of_strategy (h : Registered t slots extra w) {c : Composite}
    (hc : c ∈ t.root.orNodes) {n : UInt64} (hs : w.strategy c.id = some (.injectAction n)) :
    ∃ j, (c.id, j) ∈ slots ∧ n = w.generator.injectionId j := by
  rw [h.injector c hc] at hs
  cases hl : slots.lookup c.id with
  | none => rw [hl] at hs; cases hs
  | some j =>
      rw [hl] at hs
      cases hs
      exact ⟨j, mem_of_lookup hl, rfl⟩

theorem strategy_of_slot (h : Registered t slots extra w) {c : Composite}
    (hc : c ∈ t.root.orNodes) {j : Nat} (hj : (c.id, j) ∈ slots) :
    w.strategy c.id = some (.injectAction (w.generator.injectionId j)) := by
  rw [h.injector c hc, h.lookup_of_mem hj]
  rfl

/-- An id that a test case can enable belongs to one node. -/
theorem node_unique (h : Registered t slots extra w) {c d : Composite}
    (hc : c ∈ t.root.orNodes) (hd : d ∈ t.root.orNodes) {i j : Nat} (hi : (c.id, i) ∈ slots)
    (hj : (d.id, j) ∈ slots) {u : UInt64}
    (hu : w.generator.enable u (w.generator.injectionId j) = true)
    (he : w.generator.injectionId i = w.generator.injectionId j) : c = d := by
  have hij : i = j := h.slot_eq (h.bound _ hi).le (h.bound _ hj).le hu he
  subst hij
  have heq := List.inj_on_of_nodup_map h.calls hi hj rfl
  simp only [Prod.mk.injEq, and_true] at heq
  exact t.eq_of_id_eq (List.mem_filter.mp hc).1 (List.mem_filter.mp hd).1 heq

/-- The id the next call gives is none of those enabled. -/
theorem fresh (h : Registered t slots extra w) :
    w.generator.injectionId (slots.length + extra) ∉ w.manager.testCaseState := by
  intro hm
  obtain ⟨⟨u, hu⟩, p, hp, he⟩ := h.enabled _ hm
  have hlt := h.bound p hp
  rw [he] at hu
  have := h.slot_eq (le_refl _) hlt.le hu he
  omega

/-- The alternative a node selects is one it has. -/
theorem selected_lt (h : Registered t slots extra w) {c : Composite} (hc : c ∈ t.root.orNodes) :
    w.selected c.id < c.sons.length := by
  have halt := t.alternatives c hc
  unfold World.selected
  rw [h.injector c hc]
  cases hl : slots.lookup c.id with
  | none => exact Nat.lt_of_lt_of_le Nat.zero_lt_two halt
  | some j =>
      change TestCaseManager.updateInjector (w.generator.injectionId j) w.manager < _
      rw [TestCaseManager.updateInjector_eq]
      split
      · next hm =>
          rw [TestCaseManager.digit]
          split
          · next s hs =>
              obtain ⟨d, hd, i, hi, hid, hnum, hlast, hlt⟩ := h.observer _ s hs
              obtain ⟨⟨u, hu⟩, _⟩ := h.enabled _ hm
              rw [hid] at hu
              have hcd : c = d := h.node_unique hc hd (mem_of_lookup hl) hi hu hid
              subst hcd
              have hle : toInt32 c.sons.length ≤ c.sons.length := toInt32_le _
              omega
          · exact Nat.lt_of_lt_of_le Nat.zero_lt_two halt
      · exact Nat.lt_of_lt_of_le Nat.zero_lt_two halt

/-! ## A new injector -/

theorem lookup_eq_none (h : Registered t slots extra w) {c : Composite}
    (hc : c ∈ t.root.orNodes) (hnone : w.strategy c.id = none) : slots.lookup c.id = none := by
  rw [h.injector c hc] at hnone
  cases hl : slots.lookup c.id with
  | none => rfl
  | some j => rw [hl] at hnone; cases hnone

section Inject

variable (h : Registered t slots extra w) {c : Composite} (hc : c ∈ t.root.orNodes)
  (hnone : w.strategy c.id = none)

include h

theorem strategy_injectStrategy (id : Nat) : (w.injectStrategy id).strategy =
    Function.update w.strategy id
      (some (.injectAction (w.generator.injectionId (slots.length + extra)))) := by
  change Function.update w.strategy id
    (some (.injectAction (w.generator.getNextInjectionId w.nextInjectionId).1)) = _
  rw [h.next]
  rfl

theorem observer_injectStrategy (id : Nat) (k : UInt64) :
    (w.injectStrategy id).manager.observer[k]? =
      if w.generator.injectionId (slots.length + extra) = k then some {}
      else w.manager.observer[k]? := by
  change (w.manager.observer.insert
    (w.generator.getNextInjectionId w.nextInjectionId).1 {})[k]? = _
  rw [TestCaseManager.getElem?_insert, h.next]
  rfl

/-- An enabled injector keeps its entry when a new one registers. -/
theorem updateInjector_injectStrategy (id : Nat) (m : UInt64) :
    (w.injectStrategy id).manager.updateInjector m = w.manager.updateInjector m := by
  rw [TestCaseManager.updateInjector_eq, TestCaseManager.updateInjector_eq]
  change (if m ∈ w.manager.testCaseState then _ else 0) = _
  split
  · next hm =>
      refine TestCaseManager.digit_eq ?_
      rw [h.observer_injectStrategy, if_neg]
      intro he
      rw [← he] at hm
      exact h.fresh hm
  · rfl

include hnone

theorem selected_injectStrategy (id : Nat) :
    (w.injectStrategy c.id).selected id = w.selected id := by
  unfold World.selected
  rw [h.strategy_injectStrategy]
  by_cases hid : id = c.id
  · subst hid
    rw [Function.update_self, hnone]
    exact if_neg h.fresh
  · rw [Function.update_of_ne hid]
    split
    · exact h.updateInjector_injectStrategy c.id _
    · rfl

theorem grows_injectStrategy : w.Grows (w.injectStrategy c.id) where
  generator := rfl
  testCaseState := rfl
  strategy := by
    intro id a ha
    have hid : id ≠ c.id := by
      intro hid
      rw [hid, hnone] at ha
      cases ha
    rw [h.strategy_injectStrategy, Function.update_of_ne hid]
    exact ha
  executed := by
    intro m s hu hs _
    obtain ⟨u, hu⟩ := hu
    rw [h.observer_injectStrategy, if_neg, hs]
    intro he
    obtain ⟨d, hd, j, hj, hm, _⟩ := h.observer m s hs
    have hlt := h.bound _ hj
    rw [hm] at hu he
    have := h.slot_eq (le_refl _) hlt.le hu he
    simp only at hlt
    omega
  selected := h.selected_injectStrategy hnone

include hc

theorem not_mem_slots (j : Nat) : (c.id, j) ∉ slots := by
  intro hj
  have hlookup := h.lookup_eq_none hc hnone
  rw [h.lookup_of_mem hj] at hlookup
  cases hlookup

/-- The first visit of an `OrComposite` leaves a registered world. -/
theorem registered_injectStrategy :
    Registered t ((c.id, slots.length + extra) :: slots) extra (w.injectStrategy c.id) where
  ids := by
    refine List.nodup_cons.mpr ⟨?_, h.ids⟩
    intro hm
    obtain ⟨⟨_, j⟩, hp, rfl⟩ := List.mem_map.mp hm
    exact h.not_mem_slots hc hnone j hp
  calls := by
    refine List.nodup_cons.mpr ⟨?_, h.calls⟩
    intro hm
    obtain ⟨p, hp, he⟩ := List.mem_map.mp hm
    have := h.bound p hp
    omega
  bound := by
    intro p hp
    rw [List.length_cons]
    cases List.mem_cons.mp hp with
    | inl he => rw [he]; simp only; omega
    | inr hm => have := h.bound p hm; omega
  extra_le := h.extra_le
  orNodes := by
    intro p hp
    cases List.mem_cons.mp hp with
    | inl he => rw [he]; exact List.mem_map.mpr ⟨c, hc, rfl⟩
    | inr hm => exact h.orNodes p hm
  next := by
    change (w.generator.getNextInjectionId w.nextInjectionId).2 = _
    rw [h.next, List.length_cons, Nat.add_right_comm]
    rfl
  injector := by
    intro d hd
    rw [h.strategy_injectStrategy, List.lookup_cons]
    by_cases hid : d.id = c.id
    · rw [hid, Function.update_self, beq_self_eq_true]
      rfl
    · rw [Function.update_of_ne hid, beq_eq_false_iff_ne.mpr hid]
      exact h.injector d hd
  strategy := by
    intro d hd kind id name sons he hkind
    have hid : id ≠ c.id := (t.id_ne_of_orNode hc (he ▸ hd) hkind).symm
    rw [h.strategy_injectStrategy, Function.update_of_ne hid]
    exact h.strategy d hd kind id name sons he hkind
  observer := by
    intro m s hs
    rw [h.observer_injectStrategy] at hs
    split at hs
    · next he =>
        cases hs
        exact ⟨c, hc, _, List.mem_cons_self, he.symm, .inl rfl, le_refl 1, .inl rfl⟩
    · obtain ⟨d, hd, j, hj, hrest⟩ := h.observer m s hs
      exact ⟨d, hd, j, List.mem_cons_of_mem _ hj, hrest⟩
  registered := by
    intro p hp
    change ((w.injectStrategy c.id).manager.observer[w.generator.injectionId p.2]?).isSome
    rw [h.observer_injectStrategy]
    split
    · rfl
    · next hne =>
        cases List.mem_cons.mp hp with
        | inl he => exact absurd (by rw [he]) hne
        | inr hm => exact h.registered p hm
  enabled := by
    intro m hm
    obtain ⟨hu, p, hp, he⟩ := h.enabled m hm
    exact ⟨hu, p, List.mem_cons_of_mem _ hp, he⟩

end Inject

/-! ## Any other strategy -/

theorem setStrategy (h : Registered t slots extra w) {kind : NodeKind} {id : Nat} {name : Bytes}
    {sons : List Composite} (hc : .node kind id name sons ∈ t.root.nodes)
    (hkind : kind ≠ .orComposite) :
    Registered t slots extra (w.setStrategy id (strategyOf kind sons)) where
  ids := h.ids
  calls := h.calls
  bound := h.bound
  extra_le := h.extra_le
  orNodes := h.orNodes
  next := h.next
  injector := by
    intro d hd
    have hid : d.id ≠ id := t.id_ne_of_orNode hd hc hkind
    change Function.update w.strategy id _ d.id = _
    rw [Function.update_of_ne hid]
    exact h.injector d hd
  strategy := by
    intro d hd kind' id' name' sons' he hkind'
    change Function.update w.strategy id _ id' = none ∨ Function.update w.strategy id _ id' = _
    by_cases hid : id' = id
    · have hdc : d = .node kind id name sons := t.eq_of_id_eq hd hc (by rw [he]; exact hid)
      rw [he] at hdc
      cases hdc
      rw [Function.update_self]
      exact .inr rfl
    · rw [Function.update_of_ne hid]
      exact h.strategy d hd kind' id' name' sons' he hkind'
  observer := h.observer
  registered := h.registered
  enabled := h.enabled

theorem grows_setStrategy (w : World) {id : Nat} {a : Action} (hnone : w.strategy id = none)
    (ha : ∀ n, a ≠ .injectAction n) : w.Grows (w.setStrategy id a) where
  generator := rfl
  testCaseState := rfl
  strategy := by
    intro id' b hb
    have hid : id' ≠ id := by
      intro hid
      rw [hid, hnone] at hb
      cases hb
    change Function.update w.strategy id _ id' = _
    rw [Function.update_of_ne hid]
    exact hb
  executed _ _ _ hs _ := hs
  selected := by
    intro id'
    have hstrategy : (w.setStrategy id a).strategy = Function.update w.strategy id (some a) := rfl
    unfold World.selected
    rw [hstrategy]
    by_cases hid : id' = id
    · subst hid
      rw [Function.update_self, hnone]
      cases a with
      | injectAction n => exact absurd rfl (ha n)
      | returnAction => rfl
      | repeatAction => rfl
      | sendAction _ => rfl
      | readAction _ => rfl
      | command _ => rfl
    · rw [Function.update_of_ne hid]
      rfl

end Registered

/-! ## Visiting a node -/

/-- A registered world, whichever slots it has. -/
def World.Valid (t : ParsedTree) (extra : Nat) (w : World) : Prop :=
  ∃ slots, Registered t slots extra w

/-- What a visit of a node turns a world into. -/
structure World.Visited (t : ParsedTree) (extra : Nat) (w w' : World) : Prop where
  valid : w'.Valid t extra
  grows : w.Grows w'

namespace World

variable {t : ParsedTree} {extra : Nat} {w w' w'' : World}

theorem Visited.refl (h : w.Valid t extra) : Visited t extra w w := ⟨h, Grows.refl w⟩

theorem Visited.trans (h : Visited t extra w w') (h' : Visited t extra w' w'') :
    Visited t extra w w'' := ⟨h'.valid, h.grows.trans h'.grows⟩

/-- The strategy of a node is the factory's, with an id drawn for an injector. -/
def HasStrategy (w : World) (id : Nat) (kind : NodeKind) (sons : List Composite) : Prop :=
  match kind with
  | .orComposite => ∃ n, w.strategy id = some (.injectAction n)
  | kind => w.strategy id = some (strategyOf kind sons)

theorem HasStrategy.grows {id : Nat} {kind : NodeKind} {sons : List Composite}
    (h : w.HasStrategy id kind sons) (hg : w.Grows w') : w'.HasStrategy id kind sons := by
  cases kind with
  | composite => exact hg.strategy _ _ h
  | orComposite =>
      obtain ⟨n, hn⟩ := h
      exact ⟨n, hg.strategy _ _ hn⟩
  | repeatComposite => exact hg.strategy _ _ h

theorem HasStrategy.exists {id : Nat} {kind : NodeKind} {sons : List Composite}
    (h : w.HasStrategy id kind sons) : ∃ a, w.strategy id = some a := by
  cases kind with
  | composite => exact ⟨_, h⟩
  | orComposite =>
      obtain ⟨n, hn⟩ := h
      exact ⟨_, hn⟩
  | repeatComposite => exact ⟨_, h⟩

theorem createAction_visited (h : w.Valid t extra) {kind : NodeKind} {id : Nat} {name : Bytes}
    {sons : List Composite} (hc : .node kind id name sons ∈ t.root.nodes) :
    Visited t extra w (w.createAction kind id sons) ∧
      (w.createAction kind id sons).HasStrategy id kind sons ∧
      (w.createAction kind id sons).env = w.env := by
  obtain ⟨slots, hr⟩ := h
  unfold createAction
  cases hs : w.strategy id with
  | some a =>
      refine ⟨.refl ⟨slots, hr⟩, ?_, rfl⟩
      cases kind with
      | composite =>
          have := hr.strategy _ hc _ _ _ _ rfl (by simp)
          rw [hs] at this
          exact hs.trans (this.resolve_left (by simp))
      | orComposite =>
          have hor : Composite.node .orComposite id name sons ∈ t.root.orNodes :=
            List.mem_filter.mpr ⟨hc, rfl⟩
          have hi := hr.injector _ hor
          change w.strategy id = (slots.lookup id).map _ at hi
          cases hl : slots.lookup id with
          | none => rw [hl, hs] at hi; cases hi
          | some j => rw [hl] at hi; exact ⟨_, hi⟩
      | repeatComposite =>
          have := hr.strategy _ hc _ _ _ _ rfl (by simp)
          rw [hs] at this
          exact hs.trans (this.resolve_left (by simp))
  | none =>
      cases kind with
      | composite =>
          exact ⟨⟨⟨slots, hr.setStrategy hc (by simp)⟩, Registered.grows_setStrategy w hs
            (factoryAction_ne_injectAction sons)⟩, Function.update_self _ _ _, rfl⟩
      | orComposite =>
          have hor : Composite.node .orComposite id name sons ∈ t.root.orNodes :=
            List.mem_filter.mpr ⟨hc, rfl⟩
          have hs' : w.strategy (Composite.node .orComposite id name sons).id = none := hs
          exact ⟨⟨⟨_, hr.registered_injectStrategy hor hs'⟩, hr.grows_injectStrategy hs'⟩,
            ⟨_, Function.update_self _ _ _⟩, rfl⟩
      | repeatComposite =>
          exact ⟨⟨⟨slots, hr.setStrategy hc (by simp)⟩, Registered.grows_setStrategy w hs
            (fun n he => nomatch he)⟩, Function.update_self _ _ _, rfl⟩

/-- `getAction` at a node of the tree. -/
theorem getAction_visited (c : Composite) (hc : c ∈ t.root.nodes) {w : World}
    (h : w.Valid t extra) :
    Visited t extra w (w.getAction c) ∧ (w.getAction c).env = w.env := by
  induction c using Composite.induction generalizing w with
  | h c ih =>
      cases c with
      | leaf k i n => rw [getAction]; exact ⟨.refl h, rfl⟩
      | node kind id name sons =>
          obtain ⟨hv, _, he⟩ := createAction_visited h hc
          have hsons : ∀ cs : List Composite, (∀ d ∈ cs, d ∈ sons) → ∀ {w : World},
              w.Valid t extra → Visited t extra w (w.getActions cs) ∧
                (w.getActions cs).env = w.env := by
            intro cs
            induction cs with
            | nil => intro _ w h; rw [getActions]; exact ⟨.refl h, rfl⟩
            | cons d ds ihds =>
                intro hmem w h
                have hd : d ∈ sons := hmem d List.mem_cons_self
                have hdn := Composite.nodes_trans hc (Composite.son_mem_nodes hd)
                obtain ⟨hv, he⟩ := ih d hd hdn h
                obtain ⟨hv', he'⟩ := ihds (fun e hm => hmem e (List.mem_cons_of_mem _ hm)) hv.valid
                rw [getActions]
                exact ⟨hv.trans hv', he'.trans he⟩
          cases kind with
          | composite =>
              obtain ⟨hv', he'⟩ := hsons sons (fun _ hd => hd) hv.valid
              rw [getAction]
              exact ⟨hv.trans hv', he'.trans he⟩
          | orComposite => rw [getAction]; exact ⟨hv, he⟩; simp
          | repeatComposite => rw [getAction]; exact ⟨hv, he⟩; simp

theorem getActions_visited {cs : List Composite} (hcs : ∀ d ∈ cs, d ∈ t.root.nodes) {w : World}
    (h : w.Valid t extra) : Visited t extra w (w.getActions cs) := by
  induction cs generalizing w with
  | nil => rw [getActions]; exact .refl h
  | cons d ds ih =>
      obtain ⟨hv, _⟩ := getAction_visited d (hcs d List.mem_cons_self) h
      rw [getActions]
      exact hv.trans (ih (fun e he => hcs e (List.mem_cons_of_mem _ he)) hv.valid)

/-- A node asked for its strategy has one afterwards. -/
theorem getAction_hasStrategy {kind : NodeKind} {id : Nat} {name : Bytes}
    {sons : List Composite} (hc : .node kind id name sons ∈ t.root.nodes) (h : w.Valid t extra) :
    (w.getAction (.node kind id name sons)).HasStrategy id kind sons := by
  obtain ⟨hv, hs, _⟩ := createAction_visited h hc
  cases kind with
  | composite =>
      have hsons : ∀ d ∈ sons, d ∈ t.root.nodes :=
        fun d hd => Composite.nodes_trans hc (Composite.son_mem_nodes hd)
      rw [getAction]
      exact hs.grows (getActions_visited hsons hv.valid).grows
  | orComposite => rw [getAction]; exact hs; simp
  | repeatComposite => rw [getAction]; exact hs; simp

/-- A node finds its strategy, whether or not it was there before. -/
theorem resolve_visited {kind : NodeKind} {id : Nat} {name : Bytes} {sons : List Composite}
    (hc : .node kind id name sons ∈ t.root.nodes) (h : w.Valid t extra) :
    ∃ a w', resolve (.node kind id name sons) w = .ok (a, w') ∧ Visited t extra w w' ∧
      w'.env = w.env ∧ w'.HasStrategy id kind sons ∧ w'.strategy id = some a := by
  cases hs : w.strategy id with
  | some a =>
      obtain ⟨_, hw, _⟩ := createAction_visited h hc
      rw [createAction_of_some hs] at hw
      exact ⟨a, w, resolve_of_some hs, .refl h, rfl, hw, hs⟩
  | none =>
      obtain ⟨hv, he⟩ := getAction_visited _ hc h
      have hw := getAction_hasStrategy hc h
      obtain ⟨a, ha⟩ := hw.exists
      refine ⟨a, _, ?_, hv, he, hw, ha⟩
      rw [resolve_of_none hs]
      change Except.ok (((w.getAction _).strategy id).getD .returnAction, _) = _
      rw [ha]
      rfl

end World

/-! ## An injector asks for its alternative -/

namespace Registered

variable {t : ParsedTree} {slots : Slots} {extra : Nat} {w : World}

/-- `setSonsNumber` for an injector that has run its sons. -/
theorem setSonsNumber (h : Registered t slots extra w) {c : Composite} (hc : c ∈ t.root.orNodes)
    {n : UInt64} (hs : w.strategy c.id = some (.injectAction n)) :
    ∃ m, w.manager.setSonsNumber n c.sons.length = .ok m ∧
      Registered t slots extra { w with manager := m } ∧
      w.Grows { w with manager := m } := by
  obtain ⟨j, hj, hn⟩ := h.slot_of_strategy hc hs
  obtain ⟨s, hsome⟩ := Option.isSome_iff_exists.mp (h.registered _ hj)
  rw [← hn] at hsome
  obtain ⟨m, hm⟩ : ∃ m, w.manager.setSonsNumber n c.sons.length = .ok m := by
    rw [TestCaseManager.setSonsNumber, hsome]
    simp only
    split
    · exact ⟨_, rfl⟩
    · exact ⟨_, rfl⟩
  obtain ⟨htcs, s', hs', hentry⟩ := TestCaseManager.setSonsNumber_ok hm
  rw [hsome] at hs'
  cases hs'
  have hdigit : ∀ k, m.digit k = w.manager.digit k := by
    intro k
    rw [TestCaseManager.digit, TestCaseManager.digit, hentry]
    by_cases hk : n = k
    · rw [if_pos hk, ← hk, hsome]
      simp only
      split <;> rfl
    · rw [if_neg hk]
  refine ⟨m, hm, ?_, ?_⟩
  · exact {
      h with
      observer := by
        intro k s'' hk
        change m.observer[k]? = some s'' at hk
        rw [hentry] at hk
        split at hk
        · next he =>
            cases hk
            subst he
            have hfits := h.observer n s hsome
            split
            · next hneg =>
                obtain ⟨_, _, _, _, _, _, hlast, hlt⟩ := hfits
                exact ⟨c, hc, j, hj, hn, .inr (by simp only), hlast,
                  .inl (hlt.resolve_right (by omega))⟩
            · exact hfits
        · exact h.observer k s'' hk
      registered := by
        intro p hp
        change (m.observer[w.generator.injectionId p.2]?).isSome
        rw [hentry]
        split
        · rfl
        · exact h.registered p hp
      enabled := by
        change ∀ k ∈ m.testCaseState, _
        rw [htcs]
        exact h.enabled }
  · exact {
      generator := rfl
      testCaseState := htcs
      strategy := fun _ _ ha => ha
      executed := by
        intro k s'' _ hk hnum
        change m.observer[k]? = some s''
        rw [hentry]
        split
        · next he =>
            rw [← he, hsome] at hk
            cases hk
            rw [if_neg (by omega)]
        · exact hk
      selected := by
        intro id
        unfold World.selected
        simp only [TestCaseManager.updateInjector_eq, htcs, hdigit] }

end Registered

namespace World

variable {t : ParsedTree} {extra : Nat} {w : World}

/-- The manager answers an injector with the alternative its node selects. -/
theorem chooseAlternative_visited (h : w.Valid t extra) {c : Composite}
    (hc : c ∈ t.root.orNodes) {n : UInt64} (hs : w.strategy c.id = some (.injectAction n)) :
    ∃ w', chooseAlternative n c.sons.length w = .ok (w.selected c.id, w') ∧
      Visited t extra w w' ∧ w'.env = w.env := by
  obtain ⟨slots, hr⟩ := h
  obtain ⟨m, hm, hr', hg⟩ := hr.setSonsNumber hc hs
  refine ⟨{ w with manager := m }, ?_, ⟨⟨slots, hr'⟩, hg⟩, rfl⟩
  have hsel := hg.selected c.id
  have hvalue : ({ w with manager := m } : World).selected c.id = m.updateInjector n := by
    unfold selected
    simp only [hs]
  rw [chooseAlternative, hm, ← hsel, hvalue]

theorem withEnv_visited (h : w.Valid t extra) (e : Env) :
    Visited t extra w (HasEnv.withEnv w e) := by
  obtain ⟨slots, hr⟩ := h
  exact ⟨⟨slots, hr.withEnv e⟩, Grows.withEnv w e⟩

/-- A world before the first run. -/
def fresh : World := { generator := .exp }

theorem fresh_valid (t : ParsedTree) : fresh.Valid t 0 := ⟨[], .initial t .exp {}⟩

end World

end Stress

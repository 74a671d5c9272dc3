import Stress.Selection
import Mathlib.Logic.Function.Iterate
import Mathlib.Logic.Relation

/-!
# The loops of `main`

`main` asks every node for its strategy once, then goes through the test cases
`u64` below `number_injector`.  For each it asks the manager for a number of
runs, and between two runs of a test case the manager moves on.  The bound
`number_injector` starts at `1` and is fixed, from the next injection id, when
the first test case is through.

A step of `main` is one turn of either loop.  The monitors, the output and the
reconnection of the sockets are left out, since neither loop depends on them.
-/

namespace Stress

/-- One run of the tree, with the world as the run left it. -/
structure Run where
  u64 : UInt64
  run : Int
  world : World
  result : State

/-- Where `main` is. -/
inductive Phase where
  /-- At the test of the outer loop. -/
  | outer
  /-- At the test of the inner loop. -/
  | inner (numRun i : Int)
  | finished
deriving DecidableEq, Repr

/-- The loops of `main`, with the runs made so far. -/
structure Main where
  u64 : UInt64 := 0
  numberInjector : UInt64 := 1
  phase : Phase := .outer
  world : World
  runs : List Run := []

/-- `TestCaseManager::prepareNextTestCase`. -/
def prepareNextTestCase : Comp Fault World Unit := do
  liftEnv resetVariable
  fun w => .ok ((), { w with manager := w.manager.updateInjectorState })

namespace Main

/-- Before the loops, after `tree->getAction()`. -/
def start (t : ParsedTree) (g : TSGenerator) (e : Env) : Main :=
  { world := World.getAction t.root { generator := g, env := e } }

/-- The test of the outer loop, and the call of `getRun` at the head of its body. -/
def enterTestCase (m : Main) : Except Fault Main :=
  if m.u64 < m.numberInjector then
    match m.world.manager.getRun m.world.generator m.u64 with
    | .error x => .error x
    | .ok (numRun, manager) =>
        .ok { m with phase := .inner numRun 0, world := { m.world with manager := manager } }
  else .ok { m with phase := .finished }

/-- The body of the inner loop. -/
def runOnce (P : Platform) (t : ParsedTree) (numRun i : Int) (m : Main) : Except Fault Main :=
  match runTest P t.root m.world with
  | .error x => .error x
  | .ok (result, w) =>
      match prepareNextTestCase w with
      | .error x => .error x
      | .ok (_, w') =>
          .ok { m with
            phase := .inner numRun (i + 1)
            world := w'
            runs := m.runs ++ [⟨m.u64, i, w, result⟩] }

/-- The end of the body of the outer loop. -/
def leaveTestCase (m : Main) : Main :=
  if m.numberInjector = 1 then
    let (n, w) := m.world.drawInjectionId
    { m with phase := .outer, u64 := m.u64 + 1, numberInjector := n, world := w }
  else { m with phase := .outer, u64 := m.u64 + 1 }

def step (P : Platform) (t : ParsedTree) (m : Main) : Except Fault Main :=
  match m.phase with
  | .outer => m.enterTestCase
  | .inner numRun i =>
      if i < numRun then m.runOnce P t numRun i else .ok m.leaveTestCase
  | .finished => .ok m

def Step (P : Platform) (t : ParsedTree) (m m' : Main) : Prop := m.step P t = .ok m'

/-- The states a program run passes through. -/
def Reachable (P : Platform) (t : ParsedTree) (g : TSGenerator) (e : Env) : Main → Prop :=
  Relation.ReflTransGen (Step P t) (start t g e)

/-- The next state, or the same one when there is a fault. -/
def next (P : Platform) (t : ParsedTree) (m : Main) : Main :=
  match m.step P t with
  | .ok m' => m'
  | .error _ => m

/-- The state after some steps, or the last one before a fault. -/
def after (P : Platform) (t : ParsedTree) (n : Nat) (m : Main) : Main := (next P t)^[n] m

theorem next_of_step {P : Platform} {t : ParsedTree} {m m' : Main} (h : Step P t m m') :
    next P t m = m' := by
  rw [next, show step P t m = _ from h]

theorem after_succ (P : Platform) (t : ParsedTree) (n : Nat) (m : Main) :
    after P t (n + 1) m = next P t (after P t n m) := Function.iterate_succ_apply' _ _ _

theorem reachable_after (P : Platform) (t : ParsedTree) (g : TSGenerator) (e : Env) (n : Nat) :
    Reachable P t g e (after P t n (start t g e)) := by
  induction n with
  | zero => exact .refl
  | succ n ih =>
      rw [after_succ, next]
      split
      · next m' hm => exact ih.tail hm
      · exact ih

/-- When the state after `N` steps leads to no other one, the states before are all there are. -/
theorem reachable_after_of_last {P : Platform} {t : ParsedTree} {g : TSGenerator} {e : Env}
    (N : Nat) (hN : ∀ m, Step P t (after P t N (start t g e)) m → m = after P t N (start t g e))
    {m : Main} (h : Reachable P t g e m) : ∃ n ≤ N, m = after P t n (start t g e) := by
  induction h with
  | refl => exact ⟨0, Nat.zero_le N, rfl⟩
  | tail _ hstep ih =>
      obtain ⟨n, hn, rfl⟩ := ih
      by_cases hlt : n < N
      · exact ⟨n + 1, hlt, by rw [after_succ, next_of_step hstep]⟩
      · have heq : n = N := by omega
        subst heq
        exact ⟨n, le_refl n, hN _ hstep⟩

/-- When the loops are over after `N` steps, the states before are all there are. -/
theorem reachable_after_le {P : Platform} {t : ParsedTree} {g : TSGenerator} {e : Env} (N : Nat)
    (hN : (after P t N (start t g e)).phase = .finished) {m : Main}
    (h : Reachable P t g e m) : ∃ n ≤ N, m = after P t n (start t g e) := by
  refine reachable_after_of_last N (fun m' hstep => ?_) h
  rw [Step, step, hN] at hstep
  exact (Except.ok.inj hstep).symm

end Main

/-! ## The moves of the manager -/

namespace Registered

variable {t : ParsedTree} {slots : Slots} {extra : Nat} {w : World}

/-- `getRun` starts a test case. -/
theorem getRun (h : Registered t slots extra w) {u : UInt64} {numRun : Int}
    {m : TestCaseManager} (hm : w.manager.getRun w.generator u = .ok (numRun, m)) :
    Registered t slots extra { w with manager := m } := by
  unfold TestCaseManager.getRun at hm
  split at hm
  · cases hm
  · cases hm
    exact {
      h with
      observer := by
        intro n s hs
        change (Std.TreeMap.map _ w.manager.observer)[n]? = some s at hs
        rw [Std.TreeMap.getElem?_map] at hs
        obtain ⟨s', hs', rfl⟩ := Option.map_eq_some_iff.mp hs
        obtain ⟨c, hc, j, hj, hn, hnum, hlast, hlt⟩ := h.observer n s' hs'
        split
        · exact ⟨c, hc, j, hj, hn, hnum, le_refl 1, .inl rfl⟩
        · exact ⟨c, hc, j, hj, hn, hnum, hlast, hlt⟩
      registered := by
        intro p hp
        change ((Std.TreeMap.map _ w.manager.observer)[w.generator.injectionId p.2]?).isSome
        rw [Std.TreeMap.getElem?_map, Option.isSome_map]
        exact h.registered p hp
      enabled := by
        intro n hn
        obtain ⟨p, hp, rfl⟩ := List.mem_map.mp hn
        obtain ⟨hs, hu⟩ := TestCaseManager.mem_enabled.mp hp
        obtain ⟨c, _, j, hj, hn, _⟩ := h.observer p.1 p.2 hs
        exact ⟨⟨u, hu⟩, (c.id, j), hj, hn⟩ }

/-- `updateInjectorState` moves on to the next run of a test case. -/
theorem updateInjectorState (h : Registered t slots extra w) :
    Registered t slots extra { w with manager := w.manager.updateInjectorState } := by
  obtain ⟨htcs, _, hnum⟩ :=
    TestCaseManager.increaseStates_frame w.manager.testCaseState w.manager
  exact {
    h with
    observer := by
      refine TestCaseManager.increaseStates_forall ?_ _ h.observer
      rintro n s ⟨c, hc, j, hj, hn, hnum, hlast, hlt⟩
      rw [InjectState.increaseState]
      split
      · exact ⟨c, hc, j, hj, hn, hnum, le_refl 1, .inl rfl⟩
      · next hlt' =>
          refine ⟨c, hc, j, hj, hn, hnum, by simp only; omega, .inr ?_⟩
          simp only
          omega
    registered := by
      intro p hp
      have hsome := h.registered p hp
      have := hnum (w.generator.injectionId p.2)
      change ((TestCaseManager.increaseStates _ w.manager).observer[_]?).isSome
      rw [← Option.isSome_map] at hsome ⊢
      rw [this]
      exact hsome
    enabled := by
      change ∀ n ∈ (TestCaseManager.increaseStates _ w.manager).testCaseState, _
      rw [htcs]
      exact h.enabled }

/-- `main` draws an injection id that serves no node. -/
theorem drawInjectionId (h : Registered t slots 0 w) :
    Registered t slots 1 w.drawInjectionId.2 where
  ids := h.ids
  calls := h.calls
  bound p hp := Nat.lt_succ_of_lt (h.bound p hp)
  extra_le := le_refl 1
  orNodes := h.orNodes
  next := by
    change (w.generator.getNextInjectionId w.nextInjectionId).2 = _
    rw [h.next]
    rfl
  injector := h.injector
  strategy := h.strategy
  observer := h.observer
  registered := h.registered
  enabled := h.enabled

end Registered

/-! ## Reachable states -/

namespace World

variable {t : ParsedTree} {extra : Nat} {w w' : World}

theorem runTest_visited {P : Platform} {s : State} (hw : w.Valid t extra)
    (h : runTest P t.root w = .ok (s, w')) : Visited t extra w w' := by
  have hagree := runTest_agree (P := P) hw (Composite.mem_nodes_self t.root)
  rw [h] at hagree
  cases he : eval P w.selected t.root w.env with
  | error x => rw [he] at hagree; exact hagree.elim
  | ok p => rw [he] at hagree; exact hagree.2.visited

/-- `prepareNextTestCase` clears the variables and moves the manager on. -/
theorem prepareNextTestCase_ok (h : prepareNextTestCase w = .ok ((), w')) :
    ∃ e, w' = { (HasEnv.withEnv w e : World) with
      manager := w.manager.updateInjectorState } := by
  obtain ⟨_, w₁, hreset, h⟩ := Comp.bind_ok.mp h
  obtain ⟨e, _, rfl⟩ := liftEnv_ok.mp hreset
  cases h
  exact ⟨e, rfl⟩

theorem prepareNextTestCase_valid (hw : w.Valid t extra)
    (h : prepareNextTestCase w = .ok ((), w')) : w'.Valid t extra := by
  obtain ⟨e, rfl⟩ := prepareNextTestCase_ok h
  obtain ⟨slots, hr⟩ := hw
  exact ⟨slots, (hr.withEnv e).updateInjectorState⟩

end World

namespace Main

section Steps

variable {P : Platform} {t : ParsedTree} {m m' : Main}

/-- A step of the loops runs the tree once and forgets the variables, or leaves runs and
environment alone. -/
theorem step_env (h : Step P t m m') : (m'.world.env = m.world.env ∧ m'.runs = m.runs) ∨
    ∃ i w s, runTest P t.root m.world = .ok (s, w) ∧
      resetVariable w.env = .ok ((), m'.world.env) ∧ m'.runs = m.runs ++ [⟨m.u64, i, w, s⟩] := by
  unfold Step step at h
  split at h
  · unfold enterTestCase at h
    split at h
    · split at h
      · cases h
      · cases h
        exact .inl ⟨rfl, rfl⟩
    · cases h
      exact .inl ⟨rfl, rfl⟩
  · next numRun i _ =>
      split at h
      · unfold runOnce at h
        split at h
        · cases h
        · next s w hrun =>
            split at h
            · cases h
            · next w' hprep =>
                cases h
                obtain ⟨_, w₁, hreset, hstrategy⟩ := Comp.bind_ok.mp hprep
                obtain ⟨e₁, hreset', rfl⟩ := liftEnv_ok.mp hreset
                cases hstrategy
                exact .inr ⟨i, w, s, hrun, hreset', rfl⟩
      · cases h
        refine .inl ?_
        unfold leaveTestCase
        split <;> exact ⟨rfl, rfl⟩
  · cases h
    exact .inl ⟨rfl, rfl⟩

theorem step_unique : Relator.RightUnique (Step P t) := fun _ _ _ h h' =>
  Except.ok.inj (h.symm.trans h')

/-- Behind the loops nothing happens. -/
theorem eq_of_finished (hphase : m.phase = .finished)
    (h : Relation.ReflTransGen (Step P t) m m') : m' = m := by
  induction h with
  | refl => rfl
  | tail _ hstep ih =>
      rw [ih, Step, step, hphase] at hstep
      exact (Except.ok.inj hstep).symm

end Steps

/-- What holds in every state of the loops.  `main` draws its id when it leaves
the first test case, and never again. -/
structure Inv (t : ParsedTree) (g : TSGenerator) (m : Main) : Prop where
  generator : m.world.generator = g
  inner : ∀ numRun i, m.phase = .inner numRun i → m.u64 < m.numberInjector
  stage : (m.world.Valid t 0 ∧ m.numberInjector = 1 ∧ m.u64 = 0) ∨
    (m.world.Valid t 1 ∧ 1 ≤ m.u64)

section Invariant

variable {P : Platform} {t : ParsedTree} {g : TSGenerator} {e : Env} {m m' : Main}

theorem Inv.valid (h : Inv t g m) : ∃ extra, m.world.Valid t extra := by
  cases h.stage with
  | inl h => exact ⟨0, h.1⟩
  | inr h => exact ⟨1, h.1⟩

theorem start_inv (t : ParsedTree) (g : TSGenerator) (e : Env) : Inv t g (start t g e) := by
  have hinit : World.Valid t 0 { generator := g, env := e } := ⟨[], .initial t g e⟩
  obtain ⟨hv, _⟩ := World.getAction_visited t.root (Composite.mem_nodes_self t.root) hinit
  exact ⟨hv.grows.generator, nofun, .inl ⟨hv.valid, rfl, rfl⟩⟩

theorem enterTestCase_inv (h : Inv t g m) (hm : m.enterTestCase = .ok m') : Inv t g m' := by
  unfold enterTestCase at hm
  split at hm
  · next hlt =>
      split at hm
      · cases hm
      · next numRun manager hrun =>
          cases hm
          refine ⟨h.generator, fun _ _ _ => hlt, h.stage.imp ?_ ?_⟩
          · rintro ⟨⟨slots, hr⟩, hrest⟩
            exact ⟨⟨slots, hr.getRun hrun⟩, hrest⟩
          · rintro ⟨⟨slots, hr⟩, hrest⟩
            exact ⟨⟨slots, hr.getRun hrun⟩, hrest⟩
  · cases hm
    exact ⟨h.generator, nofun, h.stage⟩

theorem runOnce_inv {numRun i : Int} (h : Inv t g m) (hphase : m.phase = .inner numRun i)
    (hm : m.runOnce P t numRun i = .ok m') : Inv t g m' := by
  unfold runOnce at hm
  split at hm
  · cases hm
  · next result w hrun =>
      split at hm
      · cases hm
      · next w' hprep =>
          cases hm
          have hgen : w'.generator = g := by
            obtain ⟨extra, hw⟩ := h.valid
            obtain ⟨e, rfl⟩ := World.prepareNextTestCase_ok hprep
            exact (World.runTest_visited hw hrun).grows.generator.trans h.generator
          refine ⟨hgen, fun _ _ _ => h.inner _ _ hphase, h.stage.imp ?_ ?_⟩
          · rintro ⟨hw, hrest⟩
            exact ⟨World.prepareNextTestCase_valid (World.runTest_visited hw hrun).valid hprep,
              hrest⟩
          · rintro ⟨hw, hrest⟩
            exact ⟨World.prepareNextTestCase_valid (World.runTest_visited hw hrun).valid hprep,
              hrest⟩

theorem succ_toNat {u v : UInt64} (h : u < v) : (u + 1).toNat = u.toNat + 1 := by
  have hlt := UInt64.lt_iff_toNat_lt.mp h
  have := v.toNat_lt
  rw [UInt64.toNat_add, UInt64.toNat_one]
  omega

theorem leaveTestCase_inv {numRun i : Int} (h : Inv t g m)
    (hphase : m.phase = .inner numRun i) : Inv t g m.leaveTestCase := by
  have hlt := h.inner _ _ hphase
  have hu : 1 ≤ m.u64 + 1 := by
    rw [UInt64.le_iff_toNat_le, succ_toNat hlt, UInt64.toNat_one]
    omega
  unfold leaveTestCase
  split
  · next hone =>
      refine ⟨h.generator, nofun, .inr ⟨?_, hu⟩⟩
      cases h.stage with
      | inl hs =>
          obtain ⟨⟨slots, hr⟩, _⟩ := hs
          exact ⟨slots, hr.drawInjectionId⟩
      | inr hs =>
          -- Past the first test case the bound is not `1` inside the body.
          have hle := hs.2
          rw [UInt64.le_iff_toNat_le] at hle
          rw [UInt64.lt_iff_toNat_lt, hone] at hlt
          omega
  · next hne =>
      refine ⟨h.generator, nofun, .inr ⟨?_, hu⟩⟩
      cases h.stage with
      | inl hs => exact absurd hs.2.1 hne
      | inr hs => exact hs.1

theorem step_inv (h : Inv t g m) (hm : m.step P t = .ok m') : Inv t g m' := by
  unfold step at hm
  split at hm
  · exact enterTestCase_inv h hm
  · next numRun i hphase =>
      split at hm
      · exact runOnce_inv h hphase hm
      · cases hm
        exact leaveTestCase_inv h hphase
  · cases hm
    exact h

theorem Reachable.inv (h : Reachable P t g e m) : Inv t g m := by
  induction h with
  | refl => exact start_inv t g e
  | tail _ hstep ih => exact step_inv ih hstep

end Invariant

end Main

end Stress

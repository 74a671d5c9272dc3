import Stress.Registry

/-!
# Runs with a fixed selection

A run of a tree depends on the strategies and on the manager only through the
alternative each `OrComposite` selects.  `eval` runs a tree for a given
selection, over the environment alone.  `runTest_sim` says that `runTest` in a
valid world is `eval` with the alternatives the world selects, and that it
leaves a world that selects the same ones.

Properties of runs are proved about `eval` and carried over.
-/

namespace Stress

mutual

/-- `runTest` of a node when every `OrComposite` selects the alternative `sel`
gives it. -/
def eval (P : Platform) (sel : Nat → Nat) : Composite → EnvComp State
  | .leaf kind id name => pure (leafState kind id name)
  | .node kind id name sons =>
      runAction P id name sons.length
        (fun _ => injectAction (fun _ => pure (sel id)) (evalSons P sel sons))
        (evalSons P sel sons) (evalSonsReturn P sel sons) (strategyOf kind sons)

def evalSons (P : Platform) (sel : Nat → Nat) : List Composite → EnvComp (List State)
  | [] => pure []
  | c :: cs => do
      let s ← eval P sel c
      let ss ← evalSons P sel cs
      return s :: ss

def evalSonsReturn (P : Platform) (sel : Nat → Nat) : List Composite → EnvComp (List State)
  | [] => pure []
  | c :: cs => do
      let s ← eval P sel c
      if s.isFailValue then return [s]
      else
        let ss ← evalSonsReturn P sel cs
        return s :: ss

end

/-! ## Actions over related states -/

/-- Related states hold the same environment. -/
structure SameEnv {σ τ : Type} [HasEnv σ] [HasEnv τ] (R : σ → τ → Prop) : Prop where
  env : ∀ w e, R w e → HasEnv.env w = HasEnv.env e
  withEnv : ∀ w e x, R w e → R (HasEnv.withEnv w x) (HasEnv.withEnv e x)

section Actions

variable {σ τ : Type} {R : σ → τ → Prop} {all brk : Comp Fault σ (List State)}
  {all' brk' : Comp Fault τ (List State)}

theorem returnAction_sim (hbrk : Comp.Sim R Eq brk brk') (id : Nat) (name : Bytes) :
    Comp.Sim R Eq (returnAction id name brk) (returnAction id name brk') := by
  refine hbrk.bind_eq fun result => ?_
  cases result.getLast? with
  | none => exact .fault _
  | some last => exact .pure rfl

theorem runTimes_sim {m : Comp Fault σ State} {m' : Comp Fault τ State} (hm : Comp.Sim R Eq m m')
    (n : Nat) : Comp.Sim R Eq (runTimes m n) (runTimes m' n) := by
  induction n with
  | zero => exact .pure rfl
  | succ n ih => exact hm.bind_eq fun s => ih.bind_eq fun ss => .pure rfl

theorem repeatAction_sim (hbrk : Comp.Sim R Eq brk brk') (id : Nat) (name : Bytes) :
    Comp.Sim R Eq (repeatAction id name brk) (repeatAction id name brk') :=
  (runTimes_sim (returnAction_sim hbrk id name) _).bind_eq fun _ => .pure rfl

variable [HasEnv σ] [HasEnv τ] (hR : SameEnv R)

include hR

theorem liftEnv_sim {α : Type} (m : EnvComp α) :
    Comp.Sim R Eq (liftEnv m : Comp Fault σ α) (liftEnv m : Comp Fault τ α) := by
  intro w e h
  unfold liftEnv
  rw [hR.env w e h]
  cases m (HasEnv.env e) with
  | error x => rfl
  | ok p => exact ⟨rfl, hR.withEnv w e _ h⟩

theorem sendAction_sim (hall : Comp.Sim R Eq all all') (id : Nat) :
    Comp.Sim R Eq (sendAction id all) (sendAction id all') := by
  refine hall.bind_eq fun result => ?_
  simp only
  split
  · exact .fault _
  · exact (liftEnv_sim hR _).bind_eq fun n => .pure rfl

theorem readLoop_sim (hall : Comp.Sim R Eq all all') (P : Platform) (id fuel : Nat) :
    Comp.Sim R Eq (readLoop P id all fuel) (readLoop P id all' fuel) := by
  induction fuel with
  | zero => exact .fault _
  | succ fuel ih =>
      refine (liftEnv_sim hR _).bind_eq fun o => (liftEnv_sim hR _).bind_eq fun res => ?_
      refine (liftEnv_sim hR _).bind_eq fun _ => hall.bind_eq fun result => ?_
      refine (liftEnv_sim hR _).bind_eq fun res' => ?_
      split
      · exact ih
      · exact .pure rfl

theorem readAction_sim (hall : Comp.Sim R Eq all all') (P : Platform) (id : Nat) :
    Comp.Sim R Eq (readAction P id all) (readAction P id all') := by
  refine (liftEnv_sim hR _).bind_eq fun fuel => ?_
  refine (readLoop_sim hR hall P id fuel).bind_eq fun res => ?_
  exact (liftEnv_sim hR _).bind_eq fun _ => .pure rfl

theorem commandActionOn_sim (hall : Comp.Sim R Eq all all') (P : Platform) (id : Nat)
    (name : Bytes) (numSons : Nat) (c : Command) :
    Comp.Sim R Eq (commandActionOn P id name numSons c all)
      (commandActionOn P id name numSons c all') :=
  (liftEnv_sim hR _).bind_eq fun _ => hall.bind_eq fun _ => liftEnv_sim hR _

theorem runAction_sim (hall : Comp.Sim R Eq all all') (hbrk : Comp.Sim R Eq brk brk')
    {inject : UInt64 → Comp Fault σ State} {inject' : UInt64 → Comp Fault τ State}
    (P : Platform) (id : Nat) (name : Bytes) (numSons : Nat) {a : Action}
    (ha : ∀ n, a ≠ .injectAction n) :
    Comp.Sim R Eq (runAction P id name numSons inject all brk a)
      (runAction P id name numSons inject' all' brk' a) := by
  cases a with
  | returnAction => exact returnAction_sim hbrk id name
  | repeatAction => exact repeatAction_sim hbrk id name
  | injectAction n => exact absurd rfl (ha n)
  | sendAction _ => exact sendAction_sim hR hall id
  | readAction _ => exact readAction_sim hR hall P id
  | command c => exact commandActionOn_sim hR hall P id name numSons c

end Actions

/-! ## The simulation -/

/-- The alternatives a world selects. -/
def World.Selects (t : ParsedTree) (sel : Nat → Nat) (w : World) : Prop :=
  ∀ c ∈ t.root.orNodes, w.selected c.id = sel c.id

/-- A world inside a run that started in `w₀`, next to its environment. -/
structure InRun (t : ParsedTree) (extra : Nat) (w₀ w : World) (e : Env) : Prop where
  visited : World.Visited t extra w₀ w
  env : w.env = e

theorem evalSons_length {P : Platform} {sel : Nat → Nat} {cs : List Composite} {e e' : Env}
    {ss : List State} (h : evalSons P sel cs e = .ok (ss, e')) : ss.length = cs.length := by
  induction cs generalizing e e' ss with
  | nil =>
      rw [evalSons, Comp.pure_ok] at h
      rw [h.1]
      rfl
  | cons c cs ih =>
      rw [evalSons, Comp.bind_ok] at h
      obtain ⟨s, e₁, _, h⟩ := h
      obtain ⟨ss', e₂, hss, h⟩ := Comp.bind_ok.mp h
      rw [Comp.pure_ok] at h
      rw [h.1, List.length_cons, List.length_cons, ih hss]

section Simulation

variable {t : ParsedTree} {extra : Nat} {P : Platform} {sel : Nat → Nat}

theorem World.Selects.visited {w w' : World} (h : w.Selects t sel)
    (hv : World.Visited t extra w w') : w'.Selects t sel :=
  fun c hc => (hv.grows.selected c.id).trans (h c hc)

theorem InRun.sameEnv (w₀ : World) : SameEnv (InRun t extra w₀) where
  env _ _ h := h.env
  withEnv _ _ x h := ⟨h.visited.trans (World.withEnv_visited h.visited.valid x), rfl⟩

/-- What runs on from a world inside a run is inside the run. -/
theorem InRun.trans {α β : Type} {Q : α → β → Prop} {x : Except Fault (α × World)}
    {y : Except Fault (β × Env)} {w₀ w : World} {e : Env} (h : InRun t extra w₀ w e)
    (hw : Comp.Agree (InRun t extra w) Q x y) : Comp.Agree (InRun t extra w₀) Q x y :=
  hw.imp (fun _ _ hq => hq) fun _ _ h' => ⟨h.visited.trans h'.visited, h'.env⟩

/-- An injector and its place in `eval`. -/
theorem injectAction_agree {c : Composite} (hc : c ∈ t.root.orNodes) {n : UInt64} {w : World}
    (hw : w.Valid t extra) (hsel : w.Selects t sel)
    (hs : w.strategy c.id = some (.injectAction n))
    (hsons : Comp.Sim (InRun t extra w) Eq (runSons P c.sons) (evalSons P sel c.sons)) :
    Comp.Agree (InRun t extra w) Eq
      (injectAction (World.chooseAlternative n) (runSons P c.sons) w)
      (injectAction (fun _ => pure (sel c.id)) (evalSons P sel c.sons) w.env) := by
  have hagree := hsons w w.env ⟨.refl hw, rfl⟩
  unfold injectAction
  rw [Comp.bind_eq, Comp.bind_eq]
  cases hr : evalSons P sel c.sons w.env with
  | error x =>
      cases hl : runSons P c.sons w with
      | error y => rw [hl, hr] at hagree; exact hagree
      | ok p => rw [hl, hr] at hagree; exact hagree.elim
  | ok p =>
      obtain ⟨result, e₁⟩ := p
      cases hl : runSons P c.sons w with
      | error y => rw [hl, hr] at hagree; exact hagree.elim
      | ok p =>
          obtain ⟨result', w₁⟩ := p
          rw [hl, hr] at hagree
          obtain ⟨rfl, hin⟩ := hagree
          have hs₁ := hin.visited.grows.strategy _ _ hs
          obtain ⟨w₂, hchoose, hv₂, he₂⟩ :=
            World.chooseAlternative_visited hin.visited.valid hc hs₁
          rw [← evalSons_length hr] at hchoose
          have hin₂ : InRun t extra w w₂ e₁ := ⟨hin.visited.trans hv₂, he₂.trans hin.env⟩
          change Comp.Agree _ _ ((World.chooseAlternative n result'.length >>= fun value =>
            liftEnv (selectResult value result')) w₁)
            (liftEnv (selectResult (sel c.id) result') e₁)
          rw [Comp.bind_eq, hchoose, hsel.visited hin.visited c hc]
          exact liftEnv_sim (InRun.sameEnv w) _ w₂ e₁ hin₂

/-- Inside a run `runTest` is `eval` with the alternatives the run started with. -/
theorem runTest_sim (c : Composite) (hc : c ∈ t.root.nodes) {w₀ : World}
    (hsel : w₀.Selects t sel) :
    Comp.Sim (InRun t extra w₀) Eq (runTest P c) (eval P sel c) := by
  induction c using Composite.induction generalizing w₀ with
  | h c ih =>
      cases c with
      | leaf kind id name =>
          rw [runTest, eval]
          exact .pure rfl
      | node kind id name sons =>
          have hson : ∀ {w : World}, w.Selects t sel → ∀ d ∈ sons,
              Comp.Sim (InRun t extra w) Eq (runTest P d) (eval P sel d) :=
            fun hw d hd => ih d hd (Composite.nodes_trans hc (Composite.son_mem_nodes hd)) hw
          have hall : ∀ {w : World}, w.Selects t sel →
              Comp.Sim (InRun t extra w) Eq (runSons P sons) (evalSons P sel sons) := by
            intro w hw
            have hd := hson hw
            clear ih hson hc
            induction sons with
            | nil => rw [runSons, evalSons]; exact .pure rfl
            | cons d ds ihds =>
                rw [runSons, evalSons]
                refine (hd d List.mem_cons_self).bind_eq fun s => ?_
                exact (ihds fun d' hd' => hd d' (List.mem_cons_of_mem _ hd')).bind_eq
                  fun ss => .pure rfl
          have hbrk : Comp.Sim (InRun t extra w₀) Eq (runSonsReturn P sons)
              (evalSonsReturn P sel sons) := by
            have hd := hson hsel
            clear ih hson hall hc
            induction sons with
            | nil => rw [runSonsReturn, evalSonsReturn]; exact .pure rfl
            | cons d ds ihds =>
                rw [runSonsReturn, evalSonsReturn]
                refine (hd d List.mem_cons_self).bind_eq fun s => ?_
                split
                · exact .pure rfl
                · exact (ihds fun d' hd' => hd d' (List.mem_cons_of_mem _ hd')).bind_eq
                    fun ss => .pure rfl
          intro w e hin
          obtain ⟨a, w', hresolve, hv, he, hhas, ha⟩ :=
            World.resolve_visited hc hin.visited.valid
          have hin' : InRun t extra w₀ w' e := ⟨hin.visited.trans hv, he.trans hin.env⟩
          rw [runTest, eval, Comp.bind_eq, hresolve]
          cases kind with
          | composite =>
              have heq : a = factoryAction sons := Option.some.inj (ha.symm.trans hhas)
              rw [heq]
              exact runAction_sim (InRun.sameEnv w₀) (hall hsel) hbrk P id name _
                (factoryAction_ne_injectAction sons) w' e hin'
          | orComposite =>
              obtain ⟨n, hn⟩ := hhas
              have heq : a = .injectAction n := Option.some.inj (ha.symm.trans hn)
              have hor : Composite.node .orComposite id name sons ∈ t.root.orNodes :=
                List.mem_filter.mpr ⟨hc, rfl⟩
              have hsel' := hsel.visited hin'.visited
              rw [heq, ← hin'.env]
              exact hin'.trans (injectAction_agree hor hin'.visited.valid hsel' hn (hall hsel'))
          | repeatComposite =>
              have heq : a = .repeatAction := Option.some.inj (ha.symm.trans hhas)
              rw [heq]
              exact runAction_sim (InRun.sameEnv w₀) (hall hsel) hbrk P id name _
                (by intro n h; cases h) w' e hin'

/-- A run of sons inside a run. -/
theorem runSons_sim {cs : List Composite} (hcs : ∀ c ∈ cs, c ∈ t.root.nodes) {w₀ : World}
    (hsel : w₀.Selects t sel) :
    Comp.Sim (InRun t extra w₀) Eq (runSons P cs) (evalSons P sel cs) := by
  induction cs with
  | nil => rw [runSons, evalSons]; exact .pure rfl
  | cons c cs ih =>
      rw [runSons, evalSons]
      refine (runTest_sim c (hcs c List.mem_cons_self) hsel).bind_eq fun s => ?_
      exact (ih fun d hd => hcs d (List.mem_cons_of_mem _ hd)).bind_eq fun ss => .pure rfl

/-- A run that starts in a valid world. -/
theorem runTest_agree {w : World} (hw : w.Valid t extra) {c : Composite}
    (hc : c ∈ t.root.nodes) :
    Comp.Agree (InRun t extra w) Eq (runTest P c w) (eval P w.selected c w.env) :=
  runTest_sim c hc (fun _ _ => rfl) w w.env ⟨.refl hw, rfl⟩

end Simulation

end Stress

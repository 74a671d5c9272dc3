import Stress.Propagation
import Stress.RunCounts

/-!
# Test cases start afresh

A campaign runs the same tree again and again in one world.  Between two runs
`prepareNextTestCase` forgets the variables, and a read takes its last frame away.  What a
run does depends on nothing else that an earlier run has left, apart from the packets and
the answers the sockets still have to give.

`freshRuns` is the campaign as it should be seen: for each selection the tree is run in a
new environment, over the same sockets.  `campaign_is_fresh` says that the loops of `main`
do exactly that.  The history of a run is carried along in the environment, and
`eval_later` says that no action looks at it.
-/

namespace Stress

/-! ## The history of an environment -/

/-- The same environment with a longer history. -/
structure Later (pre : List Event) (e e' : Env) : Prop where
  vars : e'.vars = e.vars
  frame : e'.lastFrame = e.lastFrame
  reads : e'.reads = e.reads
  sends : e'.sends = e.sends
  trace : e'.trace = pre ++ e.trace

section

variable {pre : List Event} {e e' : Env}

theorem Later.delete (h : Later pre e e') (s : State) : Later pre (e.delete s) (e'.delete s) where
  vars := by simp only [Env.delete, h.vars]
  frame := h.frame
  reads := h.reads
  sends := h.sends
  trace := h.trace

theorem Later.refresh (h : Later pre e e') (s : State) :
    Later pre (e.refresh s) (e'.refresh s) where
  vars := by simp only [Env.refresh, h.vars]
  frame := h.frame
  reads := h.reads
  sends := h.sends
  trace := h.trace

theorem Later.deleteAll (h : Later pre e e') (ts : List State) :
    Later pre (ts.foldl (fun e t => e.delete t) e) (ts.foldl (fun e t => e.delete t) e') := by
  induction ts generalizing e e' with
  | nil => exact h
  | cons t ts ih => exact ih (h.delete t)

end

/-- A computation that does not look at the history. -/
def Forgets {α : Type} (m : EnvComp α) : Prop := ∀ pre, Comp.Sim (Later pre) Eq m m

namespace Forgets

section

variable {α β : Type} {m : EnvComp α} {k : α → EnvComp β}

theorem pure (a : α) : Forgets (Pure.pure a : EnvComp α) := fun _ => .pure rfl

theorem fault (x : Fault) : Forgets (Comp.fault x : EnvComp α) := fun _ => .fault x

theorem bind (hm : Forgets m) (hk : ∀ a, Forgets (k a)) : Forgets (m >>= k) :=
  fun pre => (hm pre).bind_eq fun a => hk a pre

theorem ite {c : Prop} [Decidable c] {m' : EnvComp α} (h : Forgets m) (h' : Forgets m') :
    Forgets (if c then m else m') := by
  split
  · exact h
  · exact h'

theorem ofExcept (x : Except Fault α) : Forgets (Stress.ofExcept x) := by
  cases x with
  | error x => exact fault x
  | ok a => exact pure a

end

/-! ## Steps on the environment -/

theorem argument (result : List State) (k : Nat) : Forgets (Stress.argument result k) := by
  rw [Stress.argument]
  split
  · exact pure _
  · exact fault _

theorem integerArgument (result : List State) (k : Nat) :
    Forgets (Stress.integerArgument result k) :=
  (argument result k).bind fun _ => ofExcept _

theorem wireArgument (result : List State) (k : Nat) : Forgets (Stress.wireArgument result k) :=
  (argument result k).bind fun _ => pure _

theorem checkVariable (var : Bytes) : Forgets (Stress.checkVariable var) := by
  intro pre e e' h
  refine ⟨?_, h⟩
  rw [h.vars]

theorem getVariable (var : Bytes) : Forgets (Stress.getVariable var) := by
  intro pre e e' h
  unfold Stress.getVariable
  rw [h.vars]
  cases e.vars.lookup var with
  | none => rfl
  | some b =>
      cases b with
      | live s => exact ⟨rfl, h⟩
      | dangling => rfl

theorem setVariable (var : Bytes) (s : State) : Forgets (Stress.setVariable var s) := by
  intro pre e e' h
  unfold Stress.setVariable
  rw [h.vars]
  split
  · exact ⟨rfl, h⟩
  · exact ⟨rfl, rfl, h.frame, h.reads, h.sends, h.trace⟩

theorem getLastFrame : Forgets Stress.getLastFrame := by
  intro pre e e' h
  unfold Stress.getLastFrame
  rw [h.frame]
  cases e.lastFrame with
  | none => rfl
  | some f => exact ⟨rfl, h⟩

theorem socketSend (data : Bytes) : Forgets (Stress.socketSend data) := by
  intro pre e e' h
  unfold Stress.socketSend
  simp only [h.sends, h.trace]
  exact ⟨rfl, h.vars, h.frame, h.reads, rfl, List.append_assoc _ _ _⟩

theorem socketRead : Forgets Stress.socketRead := by
  intro pre e e' h
  unfold Stress.socketRead
  simp only [h.reads, h.trace]
  exact ⟨rfl, h.vars, h.frame, rfl, h.sends, List.append_assoc _ _ _⟩

theorem replaceLastFrame (s : State) : Forgets (Stress.replaceLastFrame s) := by
  intro pre e e' h
  unfold Stress.replaceLastFrame
  rw [h.frame]
  cases e.lastFrame with
  | none => exact ⟨rfl, h.vars, rfl, h.reads, h.sends, h.trace⟩
  | some f => exact ⟨rfl, (h.delete f).vars, rfl, h.reads, h.sends, h.trace⟩

theorem pushLastFrame (result : List State) : Forgets (Stress.pushLastFrame result) := by
  intro pre e e' h
  unfold Stress.pushLastFrame
  rw [h.frame]
  cases e.lastFrame with
  | none => rfl
  | some f => exact ⟨rfl, h.vars, rfl, h.reads, h.sends, h.trace⟩

theorem clearLastFrame : Forgets Stress.clearLastFrame :=
  fun _ _ _ h => ⟨rfl, h.vars, rfl, h.reads, h.sends, h.trace⟩

theorem readFuel : Forgets Stress.readFuel :=
  fun _ _ _ h => ⟨congrArg (fun reads => List.length reads + 1) h.reads.symm, h⟩

theorem selectResult (value : Nat) (result : List State) :
    Forgets (Stress.selectResult value result) := by
  intro pre e e' h
  unfold Stress.selectResult
  cases result[value]? with
  | none => rfl
  | some s => exact ⟨rfl, (h.deleteAll _).refresh _⟩

/-! ## Commands -/

theorem runVariable (P : Platform) (id : Nat) (result : List State) :
    Forgets (Stress.runVariable P id result) := by
  refine (argument result 1).bind fun s => (checkVariable _).bind fun b => ?_
  cases b with
  | true => exact (getVariable _).bind fun v => pure _
  | false =>
      refine getLastFrame.bind fun frame => (integerArgument result 2).bind fun start => ?_
      refine (integerArgument result 3).bind fun lenght => ?_
      cases frame.data.rawValue with
      | none => exact fault _
      | some data => exact ite ((setVariable _ _).bind fun res => pure _) (fault _)

theorem runMemorize (P : Platform) (id : Nat) (result : List State) :
    Forgets (Stress.runMemorize P id result) := by
  refine (argument result 1).bind fun s => (checkVariable _).bind fun b => ?_
  cases b with
  | true => exact (getVariable _).bind fun v => pure _
  | false => exact (argument result 2).bind fun s => (setVariable _ _).bind fun s' => pure _

theorem runLength (P : Platform) (id : Nat) (result : List State) :
    Forgets (Stress.runLength P id result) := by
  refine ite ?_ (pure _)
  refine (integerArgument result 2).bind fun size => (wireArgument result 1).bind fun value => ?_
  exact ite (fault _) (ite (fault _) (pure _))

theorem runMaskCheck (id : Nat) (name : Bytes) (result : List State) :
    Forgets (Stress.runMaskCheck id name result) := by
  refine getLastFrame.bind fun frame => ?_
  have hend : ∀ equal : Bool, Forgets (if equal then
      (Pure.pure (((State.okState id).update (StateData.setStringValue name)).push result) :
        EnvComp State)
      else Pure.pure (((State.failState id).update (StateData.setStringValue
        (ascii "MaskCheck Fail"))).setFailValue.push result)) :=
    fun equal => ite (pure _) (pure _)
  refine ite ?_ ((pure true).bind hend)
  exact (wireArgument result 1).bind fun mask => (wireArgument result 2).bind fun value =>
    (pure _).bind hend

theorem runValueCheck (P : Platform) (id : Nat) (name : Bytes) (result : List State) :
    Forgets (Stress.runValueCheck P id name result) := by
  refine getLastFrame.bind fun frame => (wireArgument result 1).bind fun start => ?_
  refine (wireArgument result 2).bind fun size => (wireArgument result 3).bind fun expected => ?_
  exact (ofExcept _).bind fun disequal => ite (pure _) (pure _)

theorem finish (P : Platform) (id : Nat) (name : Bytes) (result : List State) (c : Command) :
    Forgets (c.finish P id name result) := by
  cases c with
  | variableCommand => exact runVariable P id result
  | additionCommand => exact (ofExcept _).bind fun sum => pure _
  | base64DecodeCommand => exact pure _
  | base64EncodeCommand => exact pure _
  | md5Command => exact pure _
  | maskCheckCommand => exact runMaskCheck id name result
  | valueCheckCommand => exact runValueCheck P id name result
  | uPauseCommand => exact ite ((integerArgument result 1).bind fun usec => pure _) (pure _)
  | lengthCommand => exact runLength P id result
  | stringLengthCommand => exact ite ((wireArgument result 1).bind fun value => pure _) (pure _)
  | memorizeCommand => exact runMemorize P id result
  | repeatCommand =>
      exact (argument result 1).bind fun blob => (integerArgument result 2).bind fun times => pure _
  | ceilDivideCommand =>
      exact (integerArgument result 1).bind fun n => (integerArgument result 2).bind fun d =>
        (ofExcept _).bind fun res => pure _

theorem usage (numSons : Nat) (c : Command) : Forgets (c.usage numSons) := by
  unfold Command.usage
  split
  · exact ite (pure _) (fault _)
  · exact pure _

/-! ## Actions -/

section

variable {P : Platform} {id : Nat} {name : Bytes} {all brk : EnvComp (List State)}

theorem returnAction (hbrk : Forgets brk) : Forgets (Stress.returnAction id name brk) := by
  refine hbrk.bind fun result => ?_
  cases result.getLast? with
  | none => exact fault _
  | some last => exact pure _

theorem runTimes {m : EnvComp State} (hm : Forgets m) (n : Nat) :
    Forgets (Stress.runTimes m n) := by
  induction n with
  | zero => exact pure _
  | succ n ih => exact hm.bind fun s => ih.bind fun ss => pure _

theorem repeatAction (hbrk : Forgets brk) : Forgets (Stress.repeatAction id name brk) :=
  ((returnAction hbrk).runTimes _).bind fun _ => pure _

theorem sendAction (hall : Forgets all) : Forgets (Stress.sendAction id all) := by
  refine hall.bind fun result => ?_
  simp only [liftEnv_env]
  exact ite (fault _) ((socketSend _).bind fun n => pure _)

theorem receive (o : ReadOutcome) : Forgets (Stress.receive P id o) :=
  ite (ite (pure _) (fault _)) (pure _)

theorem readRound (hall : Forgets all) : Forgets (Stress.readRound P id all) := by
  have hstart : Forgets (roundStart P id) := socketRead.bind fun o =>
    (receive o).bind fun res => (replaceLastFrame res).bind fun _ => pure _
  exact hstart.bind fun o => hall.bind fun result => (pushLastFrame result).bind fun res => pure _

theorem readLoop (hall : Forgets all) (fuel : Nat) : Forgets (Stress.readLoop P id all fuel) := by
  induction fuel with
  | zero => exact fault _
  | succ fuel ih =>
      rw [readLoop_succ]
      exact hall.readRound.bind fun p => ite ih (pure _)

theorem readAction (hall : Forgets all) : Forgets (Stress.readAction P id all) := by
  unfold Stress.readAction
  simp only [liftEnv_env]
  exact readFuel.bind fun fuel => (hall.readLoop fuel).bind fun res =>
    clearLastFrame.bind fun _ => pure _

theorem injectAction (hall : Forgets all) (value : Nat) :
    Forgets (Stress.injectAction (fun _ => Pure.pure value) all) := by
  unfold Stress.injectAction
  simp only [liftEnv_env, pure_bind]
  exact hall.bind fun result => selectResult value result

theorem runAction (hall : Forgets all) (hbrk : Forgets brk) (numSons value : Nat) (a : Action) :
    Forgets (Stress.runAction P id name numSons
      (fun _ => Stress.injectAction (fun _ => Pure.pure value) all) all brk a) := by
  cases a with
  | returnAction => exact hbrk.returnAction
  | repeatAction => exact hbrk.repeatAction
  | injectAction n => exact hall.injectAction value
  | sendAction socket => exact hall.sendAction
  | readAction socket => exact hall.readAction
  | command c =>
      unfold Stress.runAction commandActionOn
      simp only [liftEnv_env]
      exact (usage numSons c).bind fun _ => hall.bind fun result => finish P id name result c

end

/-! ## Trees -/

theorem evalSons {P : Platform} {sel : Nat → Nat} {cs : List Composite}
    (h : ∀ c ∈ cs, Forgets (eval P sel c)) : Forgets (Stress.evalSons P sel cs) := by
  induction cs with
  | nil =>
      rw [Stress.evalSons]
      exact pure _
  | cons c cs ih =>
      rw [Stress.evalSons]
      exact (h c List.mem_cons_self).bind fun s =>
        (ih fun d hd => h d (List.mem_cons_of_mem _ hd)).bind fun ss => pure _

theorem evalSonsReturn {P : Platform} {sel : Nat → Nat} {cs : List Composite}
    (h : ∀ c ∈ cs, Forgets (eval P sel c)) : Forgets (Stress.evalSonsReturn P sel cs) := by
  induction cs with
  | nil =>
      rw [Stress.evalSonsReturn]
      exact pure _
  | cons c cs ih =>
      rw [Stress.evalSonsReturn]
      refine (h c List.mem_cons_self).bind fun s => ite (pure _) ?_
      exact (ih fun d hd => h d (List.mem_cons_of_mem _ hd)).bind fun ss => pure _

/-- No run of a tree looks at the history. -/
theorem eval (P : Platform) (sel : Nat → Nat) (c : Composite) : Forgets (Stress.eval P sel c) := by
  induction c using Composite.induction with
  | h c ih =>
      cases c with
      | leaf kind id name =>
          rw [Stress.eval]
          exact pure _
      | node kind id name sons =>
          rw [Stress.eval]
          exact runAction (evalSons ih) (evalSonsReturn ih) _ _ _

end Forgets

/-! ## Fresh runs -/

/-- A new environment over the sockets of another one. -/
def Env.fresh (e : Env) : Env := { reads := e.reads, sends := e.sends }

/-- A run in a new environment shows its state and its calls of the sockets. -/
def freshRun (P : Platform) (c : Composite) (sel : Nat → Nat) : EnvComp (State × List Event) :=
  fun e =>
    match eval P sel c e.fresh with
    | .error x => .error x
    | .ok (s, e') => .ok ((s, e'.trace), e')

/-- The runs of a tree for the given selections, each in a new environment over the sockets
that the runs before have left. -/
def freshRuns (P : Platform) (c : Composite) : List (Nat → Nat) →
    EnvComp (List (State × List Event))
  | [] => pure []
  | sel :: sels => do
      let p ← freshRun P c sel
      let shown ← freshRuns P c sels
      return p :: shown

section

variable {P : Platform} {c : Composite} {sel : Nat → Nat} {e e' : Env} {s : State}

theorem freshRuns_concat {sels : List (Nat → Nat)} {shown : List (State × List Event)} {e₁ : Env}
    (h : freshRuns P c sels e = .ok (shown, e₁)) (hrun : eval P sel c e₁.fresh = .ok (s, e')) :
    freshRuns P c (sels ++ [sel]) e = .ok (shown ++ [(s, e'.trace)], e') := by
  induction sels generalizing e shown with
  | nil =>
      obtain ⟨rfl, rfl⟩ := Comp.pure_ok.mp h
      have hlast : freshRun P c sel e₁ = .ok ((s, e'.trace), e') := by rw [freshRun, hrun]
      exact Comp.bind_ok.mpr ⟨_, e', hlast, rfl⟩
  | cons sel' sels ih =>
      obtain ⟨p, e₂, hfirst, h⟩ := Comp.bind_ok.mp h
      obtain ⟨shown', e₃, hrest, h⟩ := Comp.bind_ok.mp h
      obtain ⟨rfl, rfl⟩ := Comp.pure_ok.mp h
      exact Comp.bind_ok.mpr ⟨p, e₂, hfirst, Comp.bind_ok.mpr ⟨_, e', ih hrest, rfl⟩⟩

/-- A run without variables and last frame is a run in a new environment. -/
theorem eval_later (hvars : e.vars = []) (hframe : e.lastFrame = none)
    (h : eval P sel c e = .ok (s, e')) :
    ∃ e₁, eval P sel c e.fresh = .ok (s, e₁) ∧ Later e.trace e₁ e' := by
  have hlater : Later e.trace e.fresh e :=
    ⟨hvars, hframe, rfl, rfl, (List.append_nil _).symm⟩
  obtain ⟨s', e₁, hrun, rfl, hlater'⟩ := (Forgets.eval P sel c e.trace).ok_right hlater h
  exact ⟨e₁, hrun, hlater'⟩

end

/-! ## The campaign -/

namespace Main

section

variable {P : Platform} {t : ParsedTree} {g : TSGenerator} {e : Env} {m m' : Main}

theorem resetVariable_ok {e' : Env} (h : resetVariable e = .ok ((), e')) :
    e' = { e with vars := [] } := by
  unfold resetVariable at h
  split at h
  · cases h
  · cases h
    rfl

/-- Between two runs there are no variables. -/
theorem Reachable.vars (h : Reachable P t g e m) (he : e.vars = []) : m.world.env.vars = [] := by
  induction h with
  | refl =>
      have hinit : World.Valid t 0 { generator := g, env := e } := ⟨[], .initial t g e⟩
      obtain ⟨_, henv⟩ := World.getAction_visited t.root (Composite.mem_nodes_self t.root) hinit
      rw [start, henv]
      exact he
  | tail _ hstep ih =>
      obtain ⟨henv, _⟩ | ⟨_, _, _, _, hreset, _⟩ := step_env hstep
      · rw [henv]
        exact ih
      · rw [resetVariable_ok hreset]

/-- A campaign is nothing but fresh runs of the tree, one for each selection, over the same
sockets: they return the states of the campaign, and their calls one after the other are
those of the campaign. -/
theorem campaign_is_fresh (P : Platform) (t : ParsedTree) (g : TSGenerator)
    (reads : List ReadOutcome) (sends : List Int) (m : Main)
    (h : Reachable P t g { reads := reads, sends := sends } m) :
    ∃ shown e', freshRuns P t.root (m.runs.map fun r => r.world.selected)
        { reads := reads, sends := sends } = .ok (shown, e') ∧
      m.runs.map Run.result = shown.map Prod.fst ∧
      m.world.env.trace = shown.flatMap Prod.snd ∧
      m.world.env.reads = e'.reads ∧ m.world.env.sends = e'.sends := by
  induction h with
  | refl =>
      refine ⟨[], { reads := reads, sends := sends }, rfl, rfl, ?_⟩
      have hinit : World.Valid t 0
          { generator := g, env := { reads := reads, sends := sends } } := ⟨[], .initial t g _⟩
      obtain ⟨_, henv⟩ := World.getAction_visited t.root (Composite.mem_nodes_self t.root) hinit
      rw [start, henv]
      exact ⟨rfl, rfl, rfl⟩
  | @tail m m' hreach hstep ih =>
      obtain ⟨shown, e₁, hruns, hresults, htrace, hreads, hsends⟩ := ih
      obtain ⟨henv, hsame⟩ | ⟨i, w, s, hrun, hreset, hnew⟩ := step_env hstep
      · rw [henv, hsame]
        exact ⟨shown, e₁, hruns, hresults, htrace, hreads, hsends⟩
      · obtain ⟨extra, hw⟩ := (Reachable.inv hreach).valid
        have heval := World.eval_of_runTest hw (Composite.mem_nodes_self t.root) hrun
        obtain ⟨e₂, hfresh, hlater⟩ :=
          eval_later (Reachable.vars hreach rfl) (Reachable.lastFrame hreach rfl) heval
        have hselected : w.selected = m.world.selected :=
          funext (World.runTest_visited hw hrun).grows.selected
        have hsockets : m.world.env.fresh = e₁.fresh := by
          rw [Env.fresh, Env.fresh, hreads, hsends]
        rw [hsockets] at hfresh
        refine ⟨shown ++ [(s, e₂.trace)], e₂, ?_, ?_, ?_, ?_, ?_⟩
        · rw [hnew, List.map_append, List.map_singleton, hselected]
          exact freshRuns_concat hruns hfresh
        · rw [hnew, List.map_append, List.map_append, hresults]
          rfl
        · rw [resetVariable_ok hreset, List.flatMap_append, ← htrace, List.flatMap_singleton]
          exact hlater.trace
        · rw [resetVariable_ok hreset]
          exact hlater.reads
        · rw [resetVariable_ok hreset]
          exact hlater.sends

end

/-- The campaign of `readThenChoice` for one packet: the second run waits in vain. -/
def readThenChoiceEnd : Main :=
  after ⟨id, 0⟩ readThenChoice 7 (start readThenChoice .exp { reads := [⟨1, [7]⟩] })

theorem campaign_is_fresh_readThenChoice :
    readThenChoiceEnd.phase = .finished ∧ readThenChoiceEnd.runs.length = 2 ∧
      ∃ shown e', freshRuns ⟨id, 0⟩ readThenChoice.root
          (readThenChoiceEnd.runs.map fun r => r.world.selected) { reads := [⟨1, [7]⟩] } =
            .ok (shown, e') ∧
        readThenChoiceEnd.runs.map Run.result = shown.map Prod.fst ∧
        readThenChoiceEnd.world.env.trace = shown.flatMap Prod.snd ∧
        readThenChoiceEnd.world.env.reads = e'.reads ∧
        readThenChoiceEnd.world.env.sends = e'.sends :=
  ⟨by decide +kernel, by decide +kernel, campaign_is_fresh ⟨id, 0⟩ readThenChoice .exp [⟨1, [7]⟩] []
    readThenChoiceEnd (reachable_after _ _ _ _ _)⟩

end Main

end Stress

import Stress.Library.Comp
import Stress.State

/-!
# The environment of a run

What a run reads and changes besides the strategies: the variables and the last
frame of the test case manager, and the sockets (`lib/test-case-manager`,
`lib/socket`).

A socket is known by its outcomes.  `reads` lists what the coming calls of
`socket->read` give, the return value with the contents of the vector after the
call, and once it is used up every read times out with `-1`.  `sends` lists the
results of the coming calls of `socket->send`, and once it is used up a send
succeeds.  The trace lists the calls made so far.

A variable is a pointer to a state.  Deleting the state leaves the pointer
dangling, and using it then is a fault.  Renaming the state is seen through the
pointer.

The operations are computations over any state that holds an environment.
-/

namespace Stress

/-- What the environment of the program is taken to be: the digest function of
the cryptographic library, and the value an uninitialised character holds. -/
structure Platform where
  md5 : Bytes → Bytes
  uninit : UInt8

/-- The pointer stored for a variable. -/
inductive Binding where
  | live (s : State)
  | dangling

/-- One call of a socket. -/
inductive Event where
  | send (data : Bytes) (n : Int)
  | read (n : Int) (data : Bytes)
deriving DecidableEq, Repr

/-- What one call of `socket->read` gives. -/
structure ReadOutcome where
  n : Int
  data : Bytes
deriving DecidableEq, Repr

/-- The outcome of a read with nothing left to deliver. -/
def ReadOutcome.timeout : ReadOutcome := ⟨-1, []⟩

structure Env where
  /-- The map from variable names to states. -/
  vars : List (Bytes × Binding) := []
  lastFrame : Option State := none
  reads : List ReadOutcome := []
  sends : List Int := []
  trace : List Event := []

/-- The bytes behind a pointer, if its state is still there. -/
def Binding.bytes : Binding → Option Bytes
  | .live s => some s.getStringToSend
  | .dangling => none

/-- What the manager has for a variable.  `none` for an unbound one, and
`some none` for one whose state is gone. -/
def Env.view (e : Env) (var : Bytes) : Option (Option Bytes) :=
  (e.vars.lookup var).map Binding.bytes

/-- A state that holds an environment. -/
class HasEnv (σ : Type) where
  env : σ → Env
  withEnv : σ → Env → σ
  env_withEnv : ∀ w e, env (withEnv w e) = e

instance : HasEnv Env where
  env e := e
  withEnv _ e := e
  env_withEnv _ _ := rfl

/-- Computations over the environment alone. -/
abbrev EnvComp := Comp Fault Env

/-- Run a computation over the environment inside a larger state. -/
def liftEnv {σ α : Type} [HasEnv σ] (m : EnvComp α) : Comp Fault σ α := fun w =>
  match m (HasEnv.env w) with
  | .error x => .error x
  | .ok (a, e) => .ok (a, HasEnv.withEnv w e)

/-- An outcome that does not depend on the environment. -/
def ofExcept {α : Type} : Except Fault α → EnvComp α
  | .ok a => pure a
  | .error x => Comp.fault x

/-! ## Variables -/

/-- `TestCaseManager::checkVariable`. -/
def checkVariable (var : Bytes) : EnvComp Bool := fun e =>
  .ok ((e.vars.lookup var).isSome, e)

/-- `TestCaseManager::getVariable`, with the use the caller makes of it. -/
def getVariable (var : Bytes) : EnvComp State := fun e =>
  match e.vars.lookup var with
  | some (.live s) => .ok (s, e)
  | some .dangling => .error .danglingState
  | none => .error .nullPointer

/-- `TestCaseManager::setVariable`.  The first binding of a name stays.  The
state comes back with the pointer to it recorded. -/
def setVariable (var : Bytes) (s : State) : EnvComp State := fun e =>
  if (e.vars.lookup var).isSome then .ok (s, e)
  else
    let s' := s.update fun d => { d with boundAs := var :: d.boundAs }
    .ok (s', { e with vars := (var, .live s') :: e.vars })

/-- The variables after `delete` of a state. -/
def Env.delete (s : State) (e : Env) : Env :=
  { e with vars := e.vars.map fun p => (p.1, if p.1 ∈ s.boundNames then .dangling else p.2) }

/-- A pointer to a state that has become `s`. -/
def Binding.follow (s : Option State) : Binding → Binding
  | .live t => .live (s.getD t)
  | .dangling => .dangling

/-- The variables after a change to a state that some of them point to. -/
def Env.refresh (s : State) (e : Env) : Env :=
  { e with vars := e.vars.map fun p => (p.1, p.2.follow (s.bindings.lookup p.1)) }

/-- `TestCaseManager::resetVariable`.  It prints every variable before clearing
them, so a dangling one is used here. -/
def resetVariable : EnvComp Unit := fun e =>
  if e.vars.any (fun p => match p.2 with | .dangling => true | .live _ => false) then
    .error .danglingState
  else .ok ((), { e with vars := [] })

/-! ## The last frame -/

/-- `TestCaseManager::getLastFrame`, with the use the caller makes of it. -/
def getLastFrame : EnvComp State := fun e =>
  match e.lastFrame with
  | some s => .ok (s, e)
  | none => .error .nullPointer

/-! ## Lookups -/

theorem lookup_map_snd {β γ : Type} (f : Bytes → β → γ) (var : Bytes) (l : List (Bytes × β)) :
    (l.map fun p => (p.1, f p.1 p.2)).lookup var = (l.lookup var).map (f var) := by
  induction l with
  | nil => rfl
  | cons p l ih =>
      rw [List.map_cons, List.lookup_cons, List.lookup_cons, ih]
      cases h : var == p.1 with
      | true => rw [eq_of_beq h]; rfl
      | false => rfl

theorem Binding.follow_none (b : Binding) : b.follow none = b := by cases b <;> rfl

theorem Env.lookup_delete (s : State) (e : Env) (var : Bytes) :
    (e.delete s).vars.lookup var =
      (e.vars.lookup var).map fun b => if var ∈ s.boundNames then .dangling else b :=
  lookup_map_snd (fun n (b : Binding) => if n ∈ s.boundNames then Binding.dangling else b) var _

theorem Env.lookup_refresh (s : State) (e : Env) (var : Bytes) :
    (e.refresh s).vars.lookup var =
      (e.vars.lookup var).map fun b => b.follow (s.bindings.lookup var) :=
  lookup_map_snd (fun n (b : Binding) => b.follow (s.bindings.lookup n)) var _

/-- The variables that point into a deleted state dangle. -/
theorem Env.view_delete (s : State) (e : Env) (var : Bytes) :
    (e.delete s).view var = if var ∈ s.boundNames then (e.view var).map fun _ => none
      else e.view var := by
  rw [view, lookup_delete, view]
  cases e.vars.lookup var with
  | none => simp
  | some b => by_cases h : var ∈ s.boundNames <;> simp [h, Binding.bytes]

/-- A live variable that points into a changed state follows it. -/
theorem Env.view_refresh (s : State) (e : Env) (var : Bytes) :
    (e.refresh s).view var = match s.bindings.lookup var with
      | some t => (e.view var).map fun b => b.map fun _ => t.getStringToSend
      | none => e.view var := by
  rw [view, lookup_refresh, view]
  cases e.vars.lookup var with
  | none => cases s.bindings.lookup var <;> rfl
  | some b => cases s.bindings.lookup var <;> cases b <;> rfl

theorem Env.delete_of_boundNames {s : State} (h : s.boundNames = []) (e : Env) :
    e.delete s = e := by
  cases e
  simp [Env.delete, h]

theorem Env.refresh_of_boundNames {s : State} (h : s.boundNames = []) (e : Env) :
    e.refresh s = e := by
  have hb : s.bindings = [] := List.map_eq_nil_iff.mp h
  cases e
  simp [Env.refresh, hb, Binding.follow_none]

/-! ## Sockets -/

/-- `socket->send`. -/
def socketSend (data : Bytes) : EnvComp Int := fun e =>
  let n := e.sends.headD data.length
  .ok (n, { e with sends := e.sends.tail, trace := e.trace ++ [.send data n] })

/-- The environment after a send. -/
def Env.sent (data : Bytes) (e : Env) : Env :=
  let n := e.sends.headD data.length
  { e with sends := e.sends.tail, trace := e.trace ++ [.send data n] }

/-- `socket->read`. -/
def socketRead : EnvComp ReadOutcome := fun e =>
  let o := e.reads.headD .timeout
  .ok (o, { e with reads := e.reads.tail, trace := e.trace ++ [.read o.n o.data] })

/-! ## Lifted computations -/

section Lift

variable {σ : Type} [HasEnv σ] {α : Type}

theorem liftEnv_ok {m : EnvComp α} {w w' : σ} {a : α} :
    liftEnv m w = .ok (a, w') ↔
      ∃ e, m (HasEnv.env w) = .ok (a, e) ∧ w' = HasEnv.withEnv w e := by
  unfold liftEnv
  cases h : m (HasEnv.env w) with
  | error x => simp
  | ok p =>
      obtain ⟨b, e⟩ := p
      constructor
      · intro heq
        cases heq
        exact ⟨e, rfl, rfl⟩
      · rintro ⟨e', he, rfl⟩
        cases he
        rfl

/-- Over the environment itself lifting changes nothing. -/
theorem liftEnv_env (m : EnvComp α) : (liftEnv m : Comp Fault Env α) = m := by
  funext e
  change (match m e with
    | .error x => .error x
    | .ok (a, e') => .ok (a, e')) = m e
  cases m e with
  | error x => rfl
  | ok p => rfl

end Lift

end Stress

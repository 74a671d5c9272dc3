import Stress.Command

/-!
# Actions

What the strategies of `lib/actions` do at a node.  An action gets the id and
the name of its node and a computation that runs the sons.  There are two ways
to run them.  `Action::runSonsAction` runs all of them, and
`ReturnAction::runSonsAction` stops after the first that fails.

The actions are written over any state that holds an environment.  The sons of
an injector are all run, whichever of them is selected afterwards.
-/

namespace Stress

/-! ## Leaves -/

/-- `ReturnAction::runAction` on a leaf. -/
def leafState (kind : LeafKind) (id : Nat) (name : Bytes) : State :=
  match kind with
  | .stringLeaf => (State.valueStringState id).update (StateData.setAbnfString name)
  | .hexLeaf => (State.valueHexState id).update (StateData.setAbnfHex name)
  | .decLeaf => (State.valueIntState id).update (StateData.setAbnfInt name)
  | .binLeaf => (State.valueBinState id).update (StateData.setStringValue name)
  | .commandComposite => State.okState id

/-- `thereIsAFail`. -/
def thereIsAFail (result : List State) : Bool := result.any State.isFailValue

/-! ## Steps on the environment -/

/-- `delete` of the last frame, if there is one, and `setLastFrame`. -/
def replaceLastFrame (s : State) : EnvComp Unit := fun e =>
  let e := match e.lastFrame with
    | some last => e.delete last
    | none => e
  .ok ((), { e with lastFrame := some s })

/-- `*res << result` for a state `res` that is the last frame.  A read inside
the sons has deleted it and has left no last frame behind. -/
def pushLastFrame (result : List State) : EnvComp State := fun e =>
  match e.lastFrame with
  | some res => .ok (res.push result, { e with lastFrame := some (res.push result) })
  | none => .error .danglingState

/-- `setLastFrame(0)`. -/
def clearLastFrame : EnvComp Unit := fun e => .ok ((), { e with lastFrame := none })

/-- The state for what a read has delivered. -/
def receive (P : Platform) (id : Nat) (o : ReadOutcome) : EnvComp State :=
  if 0 < o.n then
    if o.n ≤ o.data.length then
      pure <| (State.readPacketState id).update fun d =>
        { d with name := "Data received" }.setRawValue P.uninit o.data o.n.toNat
    else Comp.fault .outOfBounds
  else
    pure ((State.readPacketState id).setName "No Packet Received").setFailValue

/-- The end of `InjectAction::runAction`: the other results are deleted, and the
selected one gets its mark and its name. -/
def selectResult (value : Nat) (result : List State) : EnvComp State := fun e =>
  match result[value]? with
  | none => .error .outOfBounds
  | some s =>
      let res := s.setFaultValue.setName ("Anomaly-" ++ toString value)
      let e := (result.eraseIdx value).foldl (fun e t => e.delete t) e
      .ok (res, e.refresh res)

section Actions

variable {σ : Type} [HasEnv σ]

/-! ## Sequences and repetitions -/

/-- `ReturnAction::runAction(Composite*)`. -/
def returnAction (id : Nat) (name : Bytes) (runSonsReturn : Comp Fault σ (List State)) :
    Comp Fault σ State := do
  let result ← runSonsReturn
  match result.getLast? with
  | none => Comp.fault .outOfBounds
  | some last =>
      let ret := if last.isFailValue then State.failState id else State.okState id
      return (ret.update (StateData.setStringValue name)).push result

/-- Run a computation a number of times. -/
def runTimes (m : Comp Fault σ State) : Nat → Comp Fault σ (List State)
  | 0 => pure []
  | n + 1 => do
      let s ← m
      let ss ← runTimes m n
      return s :: ss

/-- `RepeatAction::runAction`.  The name starts with the number of copies. -/
def repeatAction (id : Nat) (name : Bytes) (runSonsReturn : Comp Fault σ (List State)) :
    Comp Fault σ State := do
  let results ← runTimes (returnAction id name runSonsReturn) (extractInt name).toNat
  return ((State.okState id).update (StateData.setStringValue name)).push results

/-! ## Sockets -/

/-- The bytes `SendAction::runAction` collects.  The first son is the command. -/
def dataToSend (result : List State) : Bytes := result.tail.flatMap State.getStringToSend

/-- The state `SendAction::runAction` returns.  Both results of the send end in
the packet mark. -/
def sentState (id : Nat) (data : Bytes) (n : Int) (result : List State) : State :=
  let res :=
    if 0 ≤ n then
      (State.sendPacketState id).update fun d =>
        { d with name := "Data sent" }.setStringValue ([92, 34] ++ data ++ [92, 34])
    else (State.sendPacketState id).setFailValue
  (res.push result).setPacketValue

/-- `SendAction::runAction`.  Its loop over the data counts with an `int`. -/
def sendAction (id : Nat) (runSons : Comp Fault σ (List State)) : Comp Fault σ State := do
  let result ← runSons
  let data := dataToSend result
  if intMax < data.length then Comp.fault .intOverflow
  else
    let n ← liftEnv (socketSend data)
    return sentState id data n result

/-- The loop of `ReadAction::runAction`. -/
def readLoop (P : Platform) (id : Nat) (runSons : Comp Fault σ (List State)) :
    Nat → Comp Fault σ State
  | 0 => Comp.fault .outOfFuel
  | fuel + 1 => do
      let o ← liftEnv socketRead
      let res ← liftEnv (receive P id o)
      liftEnv (replaceLastFrame res)
      let result ← runSons
      let res ← liftEnv (pushLastFrame result)
      if thereIsAFail result && decide (0 ≤ o.n) then readLoop P id runSons fuel
      else return res

/-- How often the loop can read: every packet left, and the timeout after it. -/
def readFuel : EnvComp Nat := fun e => .ok (e.reads.length + 1, e)

/-- `ReadAction::runAction`. -/
def readAction (P : Platform) (id : Nat) (runSons : Comp Fault σ (List State)) :
    Comp Fault σ State := do
  let fuel ← liftEnv readFuel
  let res ← readLoop P id runSons fuel
  liftEnv clearLastFrame
  return if res.isFailValue then res else res.setPacketValue

/-! ## Injectors and commands -/

/-- `InjectAction::runAction`, for a manager that answers `choose`. -/
def injectAction (choose : Nat → Comp Fault σ Nat) (runSons : Comp Fault σ (List State)) :
    Comp Fault σ State := do
  let result ← runSons
  let value ← choose result.length
  liftEnv (selectResult value result)

/-- The `runAction` of a command. -/
def commandActionOn (P : Platform) (id : Nat) (name : Bytes) (numSons : Nat) (c : Command)
    (runSons : Comp Fault σ (List State)) : Comp Fault σ State := do
  liftEnv (c.usage numSons)
  let result ← runSons
  liftEnv (c.finish P id name result)

/-- The `runAction` of every strategy but `InjectAction`, whose place is taken
by `inject`. -/
def runAction (P : Platform) (id : Nat) (name : Bytes) (numSons : Nat)
    (inject : UInt64 → Comp Fault σ State) (runSons runSonsReturn : Comp Fault σ (List State)) :
    Action → Comp Fault σ State
  | .returnAction => returnAction id name runSonsReturn
  | .repeatAction => repeatAction id name runSonsReturn
  | .injectAction injectionId => inject injectionId
  | .sendAction _ => sendAction id runSons
  | .readAction _ => readAction P id runSons
  | .command c => commandActionOn P id name numSons c runSons

end Actions

/-! ## Equations -/

section Equations

variable {σ : Type} {w w' : σ} {result : List State}

/-- A sequence fails exactly when its last son run does. -/
theorem returnAction_eq {runSonsReturn : Comp Fault σ (List State)}
    (h : runSonsReturn w = .ok (result, w')) {last : State} (hlast : result.getLast? = some last)
    (id : Nat) (name : Bytes) :
    returnAction id name runSonsReturn w =
      .ok ((((if last.isFailValue then State.failState id else State.okState id).update
        (StateData.setStringValue name)).push result), w') := by
  rw [returnAction, Comp.bind_eq, h]
  simp only
  rw [hlast]
  rfl

/-- A computation that leaves the state alone gives the same result each time. -/
theorem runTimes_eq {m : Comp Fault σ State} {s : State} (h : m w = .ok (s, w)) (n : Nat) :
    runTimes m n w = .ok (List.replicate n s, w) := by
  induction n with
  | zero => rfl
  | succ n ih =>
      rw [runTimes, Comp.bind_eq, h]
      simp only
      rw [Comp.bind_eq, ih]
      rfl

theorem foldl_delete_of_boundNames {ts : List State} (h : ∀ t ∈ ts, t.boundNames = []) (e : Env) :
    ts.foldl (fun e t => e.delete t) e = e := by
  induction ts with
  | nil => rfl
  | cons t ts ih =>
      rw [List.foldl_cons, Env.delete_of_boundNames (h t List.mem_cons_self)]
      exact ih fun t' ht' => h t' (List.mem_cons_of_mem _ ht')

/-- Selecting among results without bindings touches no variable. -/
theorem selectResult_eq {value : Nat} {s : State} (h : result[value]? = some s)
    (hb : ∀ t ∈ result, t.boundNames = []) (e : Env) :
    selectResult value result e =
      .ok (s.setFaultValue.setName ("Anomaly-" ++ toString value), e) := by
  have hs := hb s (List.mem_of_getElem? h)
  unfold selectResult
  rw [h]
  simp only
  rw [foldl_delete_of_boundNames fun t ht => hb t (List.mem_of_mem_eraseIdx ht),
    Env.refresh_of_boundNames]
  rw [State.boundNames_setName, State.setFaultValue, State.boundNames_setStateValue, hs]

end Equations

end Stress

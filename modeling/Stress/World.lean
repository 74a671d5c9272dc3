import Stress.Action
import Stress.TestCaseManager

/-!
# Running a tree

A world is what the program keeps between two visits of a node: the strategies
the nodes have got so far, the counter of the action factory, the test case
manager and the environment.

A node gets its strategy when it is first asked for it.  The strategy of an
`OrComposite` draws an injection id and registers with the manager, so ids are
given in the order of the first visits.  Leaves always get `ReturnAction`, and
their strategies are not kept.
-/

namespace Stress

structure World where
  generator : TSGenerator
  /-- `strategy` of the nodes that have one, by node id. -/
  strategy : Nat → Option Action := fun _ => none
  nextInjectionId : UInt64 := 1
  manager : TestCaseManager := {}
  env : Env := {}

instance : HasEnv World where
  env := World.env
  withEnv w e := { w with env := e }
  env_withEnv _ _ := rfl

namespace World

/-- `ActionFactory::getNextInjectionId`. -/
def drawInjectionId (w : World) : UInt64 × World :=
  let p := w.generator.getNextInjectionId w.nextInjectionId
  (p.1, { w with nextInjectionId := p.2 })

def setStrategy (id : Nat) (a : Action) (w : World) : World :=
  { w with strategy := Function.update w.strategy id (some a) }

/-- `ActionFactory::getAction(OrComposite*)`, with the constructor of
`InjectAction`. -/
def injectStrategy (id : Nat) (w : World) : World :=
  let (n, w) := w.drawInjectionId
  { w with manager := w.manager.registerInjector n }.setStrategy id (.injectAction n)

/-- The strategy of a node that has none yet. -/
def createAction (kind : NodeKind) (id : Nat) (sons : List Composite) (w : World) : World :=
  match w.strategy id with
  | some _ => w
  | none =>
      match kind with
      | .composite => w.setStrategy id (factoryAction sons)
      | .orComposite => w.injectStrategy id
      | .repeatComposite => w.setStrategy id .repeatAction

mutual

/-- `getAction`.  Only a `Composite` goes on to its sons. -/
def getAction : Composite → World → World
  | .leaf _ _ _, w => w
  | .node kind id _ sons, w =>
      let w := w.createAction kind id sons
      match kind with
      | .composite => getActions sons w
      | _ => w

def getActions : List Composite → World → World
  | [], w => w
  | c :: cs, w => getActions cs (getAction c w)

end

/-- `strategy` at the head of `Composite::runTest`. -/
def resolve (c : Composite) : Comp Fault World Action := fun w =>
  let w := match w.strategy c.id with
    | some _ => w
    | none => w.getAction c
  .ok ((w.strategy c.id).getD .returnAction, w)

theorem createAction_of_some {w : World} {id : Nat} {a : Action} (h : w.strategy id = some a)
    (kind : NodeKind) (sons : List Composite) : w.createAction kind id sons = w := by
  unfold createAction
  rw [h]

theorem resolve_of_some {w : World} {c : Composite} {a : Action} (h : w.strategy c.id = some a) :
    resolve c w = .ok (a, w) := by
  unfold resolve
  simp only [h, Option.getD_some]

theorem resolve_of_none {w : World} {c : Composite} (h : w.strategy c.id = none) :
    resolve c w = .ok (((w.getAction c).strategy c.id).getD .returnAction, w.getAction c) := by
  unfold resolve
  simp only [h]

/-- `setSonsNumber` and `updateInjector` for an injector that has run its sons. -/
def chooseAlternative (injectionId : UInt64) (numSons : Nat) : Comp Fault World Nat := fun w =>
  match w.manager.setSonsNumber injectionId numSons with
  | .error x => .error x
  | .ok m => .ok (m.updateInjector injectionId, { w with manager := m })

end World

mutual

/-- `runTest`. -/
def runTest (P : Platform) : Composite → Comp Fault World State
  | .leaf kind id name => pure (leafState kind id name)
  | .node kind id name sons => do
      let a ← World.resolve (.node kind id name sons)
      runAction P id name sons.length
        (fun n => injectAction (World.chooseAlternative n) (runSons P sons))
        (runSons P sons) (runSonsReturn P sons) a

/-- `Action::runSonsAction`. -/
def runSons (P : Platform) : List Composite → Comp Fault World (List State)
  | [] => pure []
  | c :: cs => do
      let s ← runTest P c
      let ss ← runSons P cs
      return s :: ss

/-- `ReturnAction::runSonsAction`. -/
def runSonsReturn (P : Platform) : List Composite → Comp Fault World (List State)
  | [] => pure []
  | c :: cs => do
      let s ← runTest P c
      if s.isFailValue then return [s]
      else
        let ss ← runSonsReturn P cs
        return s :: ss

end

/-- The alternative a node selects in a world. -/
def World.selected (w : World) (id : Nat) : Nat :=
  match w.strategy id with
  | some (.injectAction n) => w.manager.updateInjector n
  | _ => 0

end Stress

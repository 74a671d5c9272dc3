import Stress.Faults
import Stress.Registry
import Mathlib.Data.List.Pairwise

/-!
# Automatic injection

Before the runs `main` asks the root of the tree for its action, collects the sends below
it and has the leaves below these sends replaced.  Two visits decide what happens to a
leaf.  `findSendComposite` goes into every node that is not a send, and has the nodes
below a send get their actions.  `inject` then goes only into the sons that a node's own
action counts as data, and into none of a node that has no action yet.

An `OrComposite` and a `RepeatComposite` get their action without handing the question
on, so what stands below an inner node that is a son of one of them has no action.
`Passes` follows a path from a send down under these rules.  A leaf is replaced exactly
if the outermost send above it, other than the root, is among those that `main` has
processed, and the path from there passes.
-/

namespace Stress

/-! ## Sons with data -/

/-- `getDataSons` of an action, by the places of the sons.  `MemorizeCommand` takes the
third son, whether there is one or not. -/
def Action.getDataSons (numSons : Nat) : Action → List Nat
  | .command .variableCommand => []
  | .command .memorizeCommand => [2]
  | _ => List.range numSons

/-- `dynamic_cast<SendAction*>`. -/
def Action.isSend : Action → Bool
  | .sendAction _ => true
  | _ => false

/-- `Composite::getDataSons`.  A node without an action has none. -/
def World.getDataSons (w : World) (id numSons : Nat) : List Nat :=
  ((w.strategy id).map (Action.getDataSons numSons)).getD []

/-- What `getAction` returns. -/
def World.actionOf (w : World) : Composite → Action
  | .leaf _ _ _ => .returnAction
  | .node _ id _ _ => (w.strategy id).getD .returnAction

/-! ## Nodes for the anomalies -/

mutual

/-- The nodes of a tree, with ids drawn from `TestControl` in the order they are made. -/
def makeNode : Tree → Nat → Composite × Nat
  | .leaf kind name, nextId => (.leaf kind nextId name, nextId + 1)
  | .node kind name sons, nextId =>
      let p := makeSons sons (nextId + 1)
      (.node kind nextId name p.1, p.2)

def makeSons : List Tree → Nat → List Composite × Nat
  | [], nextId => ([], nextId)
  | t :: ts, nextId =>
      let p := makeNode t nextId
      let q := makeSons ts p.2
      (p.1 :: q.1, q.2)

end

/-- What automatic injection changes besides the tree. -/
structure Injection where
  /-- The counter of `TestControl`. -/
  nextId : Nat
  anomalyCounter : Nat := 0
  orCounter : Nat := 0
  /-- The leaves given back to the heap. -/
  deleted : List Nat := []

namespace AnomalyInjector

variable (w : World) (rand : Nat → Nat → Nat → Nat)

/-- `injector->inject` of a leaf and the `delete` behind it.  A string leaf without text
comes back itself, any other leaf as a copy.  A name without a backslash makes `erase`
throw.  `rand k` are the numbers drawn for the alternation `k`. -/
def injectLeaf (kind : LeafKind) (id : Nat) (name : Bytes) (st : Injection) :
    Option (Composite × Injection) :=
  match kind with
  | .stringLeaf =>
      match trim name with
      | none => none
      | some [] => some (.leaf .stringLeaf id name, { st with deleted := id :: st.deleted })
      | some origName =>
          let branch := makeNode (InjectorPerformer.createFaults st.anomalyCounter origName
            st.orCounter (rand st.orCounter) name) st.nextId
          some (branch.1, {
            nextId := branch.2
            anomalyCounter := st.anomalyCounter + 7
            orCounter := st.orCounter + 1
            deleted := id :: st.deleted })
  | kind => some (.leaf kind st.nextId name,
      { st with nextId := st.nextId + 1, deleted := id :: st.deleted })

mutual

/-- `inject`, with its loop body for a leaf.  A place that no son has is an access past
the end of the sons. -/
def inject : Composite → Injection → Option (Composite × Injection)
  | .leaf kind id name, st => injectLeaf rand kind id name st
  | .node kind id name sons, st =>
      let datasons := w.getDataSons id sons.length
      if ∀ k ∈ datasons, k < sons.length then
        (injectSons datasons 0 sons st).map fun p => (.node kind id name p.1, p.2)
      else none

def injectSons (datasons : List Nat) : Nat → List Composite → Injection →
    Option (List Composite × Injection)
  | _, [], st => some ([], st)
  | k, c :: cs, st =>
      let son := if k ∈ datasons then inject c st else some (c, st)
      son.bind fun p =>
        (injectSons datasons (k + 1) cs p.2).map fun q => (p.1 :: q.1, q.2)

end

mutual

/-- `findSendComposite`. -/
def findSendComposite : Composite → World → List Composite × World
  | .leaf _ _ _, w => ([], w)
  | .node _ _ _ sons, w => findSendSons sons w

def findSendSons : List Composite → World → List Composite × World
  | [], w => ([], w)
  | c :: cs, w =>
      let w := w.getAction c
      let p := if (w.actionOf c).isSend then ([c], w) else findSendComposite c w
      let q := findSendSons cs p.2
      (p.1 ++ q.1, q.2)

end

/-- The loop of `main` over the sends.  `inject` ends without a `return`, and `returned k`
is the value that `main` finds after the send `k`. -/
def injectSends (returned : Nat → Bool) : Nat → List Composite → Injection →
    Option (List Composite × Injection)
  | _, [], st => some ([], st)
  | k, c :: cs, st =>
      (inject w rand c st).bind fun p =>
        if returned k then
          (injectSends returned (k + 1) cs p.2).map fun q => (p.1 :: q.1, q.2)
        else some ([p.1], p.2)

/-- What has become of a node. -/
def branchOf (branches : List Composite) (id : Nat) : Option Composite :=
  branches.find? fun b => b.id == id

mutual

/-- The tree around the sends that were changed in their places. -/
def attach (branches : List Composite) : Composite → Composite
  | .leaf kind id name => .leaf kind id name
  | .node kind id name sons =>
      (branchOf branches id).getD (.node kind id name (attachSons branches sons))

def attachSons (branches : List Composite) : List Composite → List Composite
  | [] => []
  | c :: cs => attach branches c :: attachSons branches cs

end

/-- What `main` does to the tree with an injector that is active. -/
def autoInject (generator : TSGenerator) (returned : Nat → Bool) (root : Composite)
    (st : Injection) : Option (Composite × Injection) :=
  let found := findSendComposite root (({ generator } : World).getAction root)
  (injectSends found.2 rand returned 0 found.1 st).map fun p => (attach p.1 root, p.2)

end AnomalyInjector

/-! ## Paths -/

namespace Composite

/-- The node at the end of a path of places from the root. -/
def nodeAt : Composite → List Nat → Option Composite
  | c, [] => some c
  | c, k :: p => c.sons[k]?.bind fun d => nodeAt d p

/-- The places of the sons that the action of a node counts as data. -/
def dataSons : Composite → List Nat
  | .leaf _ _ _ => []
  | .node kind _ _ sons => (strategyOf kind sons).getDataSons sons.length

def isSend : Composite → Bool
  | .node .composite _ _ sons => (factoryAction sons).isSend
  | _ => false

/-- No command on the way excludes the son that the path goes into. -/
def DataPath : Composite → List Nat → Prop
  | _, [] => True
  | c, k :: p => k ∈ c.dataSons ∧ ∃ d, c.sons[k]? = some d ∧ DataPath d p

/-- `getAction` goes on to the sons. -/
def givesActions : Composite → Bool
  | .node .composite _ _ _ => true
  | _ => false

/-- Moreover no inner node is entered from an alternation or a repetition. -/
def Passes : Composite → List Nat → Prop
  | _, [] => True
  | c, k :: p => k ∈ c.dataSons ∧
      ∃ d, c.sons[k]? = some d ∧ (c.givesActions = true ∨ d.isLeaf = true) ∧ Passes d p

mutual

/-- The outermost sends below a node. -/
def sendsBelow : Composite → List Composite
  | .leaf _ _ _ => []
  | .node _ _ _ sons => sendsAmong sons

def sendsAmong : List Composite → List Composite
  | [] => []
  | c :: cs => (if c.isSend then [c] else sendsBelow c) ++ sendsAmong cs

end

/-- The outermost send below the root on a path, and the rest of the path. -/
def sendOn : Composite → List Nat → Option (Composite × List Nat)
  | _, [] => none
  | c, k :: p => c.sons[k]?.bind fun d => if d.isSend then some (d, p) else sendOn d p

/-- The sends `main` processes. -/
def processed (returned : Nat → Bool) : Nat → List Composite → List Composite
  | _, [] => []
  | k, c :: cs => c :: if returned k then processed returned (k + 1) cs else []

/-- A path leads to a node that `inject` comes to. -/
def Reached (returned : Nat → Bool) (root : Composite) (p : List Nat) : Prop :=
  ∃ s r, root.sendOn p = some (s, r) ∧ s ∈ processed returned 0 root.sendsBelow ∧ s.Passes r

/-- A path leads to a string leaf with text that is data of a send. -/
def InScope (root : Composite) (p : List Nat) (name : Bytes) : Prop :=
  ∃ q r s id text, p = q ++ r ∧ root.nodeAt q = some s ∧ s.isSend = true ∧ s.DataPath r ∧
    s.nodeAt r = some (.leaf .stringLeaf id name) ∧ trim name = some text ∧ text ≠ []

/-- A path leads to an alternation that starts with a copy of the leaf. -/
def Replaced (root : Composite) (p : List Nat) (name : Bytes) : Prop :=
  ∃ id orName leafId anomalies, root.nodeAt p =
    some (.node .orComposite id orName (.leaf .stringLeaf leafId name :: anomalies))

/-- A `Memorize` without a third son. -/
def shortMemorize : Composite → Bool
  | .node .composite _ _ sons =>
      decide (factoryAction sons = .command .memorizeCommand) && decide (sons.length < 3)
  | _ => false

def hasText : Composite → Bool
  | .leaf .stringLeaf _ name => (trim name).isSome
  | _ => true

/-- The string leaves have names as the scanner makes them. -/
def Quoted (root : Composite) : Prop := ∀ c ∈ root.nodes, c.hasText = true

end Composite

/-! ## Nodes with actions -/

namespace Composite

mutual

/-- The nodes that get their actions with a node. -/
def actionIds : Composite → List Nat
  | .leaf _ _ _ => []
  | .node .composite id _ sons => id :: actionIdsOf sons
  | .node _ id _ _ => [id]

def actionIdsOf : List Composite → List Nat
  | [] => []
  | c :: cs => actionIds c ++ actionIdsOf cs

end

mutual

/-- The nodes that get their actions while the sends are looked for. -/
def searchedIds : Composite → List Nat
  | .leaf _ _ _ => []
  | .node _ _ _ sons => searchedIdsOf sons

def searchedIdsOf : List Composite → List Nat
  | [] => []
  | c :: cs => actionIds c ++ (if c.isSend then [] else searchedIds c) ++ searchedIdsOf cs

end

theorem actionIdsOf_eq (cs : List Composite) : actionIdsOf cs = cs.flatMap actionIds := by
  induction cs with
  | nil => rfl
  | cons c cs ih => rw [actionIdsOf, ih, List.flatMap_cons]

theorem mem_searchedIds {c : Composite} {i : Nat} :
    i ∈ c.searchedIds ↔
      ∃ d ∈ c.sons, i ∈ d.actionIds ∨ d.isSend = false ∧ i ∈ d.searchedIds := by
  have hall : ∀ cs : List Composite, i ∈ searchedIdsOf cs ↔
      ∃ d ∈ cs, i ∈ d.actionIds ∨ d.isSend = false ∧ i ∈ d.searchedIds := by
    intro cs
    induction cs with
    | nil => exact ⟨nofun, nofun⟩
    | cons c cs ih =>
        rw [searchedIdsOf, List.mem_append, List.mem_append, ih, List.exists_mem_cons_iff]
        cases c.isSend <;> simp
  cases c with
  | leaf => exact ⟨nofun, nofun⟩
  | node => exact hall _

theorem mem_sendsBelow {c s : Composite} :
    s ∈ c.sendsBelow ↔
      ∃ d ∈ c.sons, d.isSend = true ∧ s = d ∨ d.isSend = false ∧ s ∈ d.sendsBelow := by
  have hall : ∀ cs : List Composite, s ∈ sendsAmong cs ↔
      ∃ d ∈ cs, d.isSend = true ∧ s = d ∨ d.isSend = false ∧ s ∈ d.sendsBelow := by
    intro cs
    induction cs with
    | nil => exact ⟨nofun, nofun⟩
    | cons c cs ih =>
        rw [sendsAmong, List.mem_append, ih, List.exists_mem_cons_iff]
        cases c.isSend <;> simp
  cases c with
  | leaf => exact ⟨nofun, nofun⟩
  | node => exact hall _

/-- Only inner nodes get actions, and they are nodes of the tree. -/
theorem actionIds_subset (c : Composite) : ∀ i ∈ c.actionIds, i ∈ c.nodes.map id := by
  induction c using Composite.induction with
  | h c ih =>
      cases c with
      | leaf => nofun
      | node kind id name sons =>
          intro i hi
          rw [nodes_eq, List.map_cons, List.mem_cons]
          cases kind with
          | composite =>
              rw [actionIds, actionIdsOf_eq, List.mem_cons] at hi
              refine hi.imp_right fun hi => ?_
              obtain ⟨d, hd, hi⟩ := List.mem_flatMap.mp hi
              obtain ⟨e, he, rfl⟩ := List.mem_map.mp (ih d hd i hi)
              exact List.mem_map_of_mem (List.mem_flatMap.mpr ⟨d, hd, he⟩)
          | orComposite => exact .inl (List.mem_singleton.mp hi)
          | repeatComposite => exact .inl (List.mem_singleton.mp hi)

theorem searchedIds_subset (c : Composite) : ∀ i ∈ c.searchedIds, i ∈ c.nodes.map id := by
  induction c using Composite.induction with
  | h c ih =>
      intro i hi
      obtain ⟨d, hd, hi⟩ := mem_searchedIds.mp hi
      have hid : i ∈ d.nodes.map Composite.id := by
        cases hi with
        | inl hi => exact actionIds_subset d i hi
        | inr hi => exact ih d hd i hi.2
      obtain ⟨e, he, rfl⟩ := List.mem_map.mp hid
      exact List.mem_map_of_mem (nodes_trans (son_mem_nodes hd) he)

end Composite

namespace World

theorem isSome_createAction (kind : NodeKind) (id : Nat) (sons : List Composite) (w : World)
    (i : Nat) : ((w.createAction kind id sons).strategy i).isSome = true ↔
      (w.strategy i).isSome = true ∨ i = id := by
  have hupdate : ∀ a : Action, (Function.update w.strategy id (some a) i).isSome = true ↔
      (w.strategy i).isSome = true ∨ i = id := by
    intro a
    rw [Function.update_apply]
    split
    · next h => exact ⟨fun _ => .inr h, fun _ => rfl⟩
    · next h => exact ⟨.inl, fun hi => hi.resolve_right h⟩
  cases h : w.strategy id with
  | some a =>
      rw [createAction_of_some h]
      refine ⟨.inl, fun hi => hi.elim (fun h => h) fun he => ?_⟩
      rw [he, h]
      rfl
  | none =>
      unfold createAction
      rw [h]
      cases kind with
      | composite => exact hupdate _
      | orComposite => exact hupdate _
      | repeatComposite => exact hupdate _

theorem isSome_getAction (c : Composite) (w : World) (i : Nat) :
    ((w.getAction c).strategy i).isSome = true ↔
      (w.strategy i).isSome = true ∨ i ∈ c.actionIds := by
  induction c using Composite.induction generalizing w with
  | h c ih =>
      cases c with
      | leaf =>
          rw [getAction, Composite.actionIds]
          exact ⟨.inl, fun h => h.resolve_right List.not_mem_nil⟩
      | node kind id name sons =>
          have hcreate := isSome_createAction kind id sons w i
          have hsons : ∀ cs : List Composite, (∀ d ∈ cs, d ∈ sons) → ∀ w : World,
              ((w.getActions cs).strategy i).isSome = true ↔
                (w.strategy i).isSome = true ∨ i ∈ Composite.actionIdsOf cs := by
            intro cs
            induction cs with
            | nil => exact fun _ w => ⟨.inl, fun h => h.resolve_right List.not_mem_nil⟩
            | cons d ds ihds =>
                intro hmem w
                rw [getActions, ihds (fun e he => hmem e (List.mem_cons_of_mem _ he)),
                  ih d (hmem d List.mem_cons_self), Composite.actionIdsOf, List.mem_append,
                  or_assoc]
          cases kind with
          | composite =>
              rw [getAction, hsons sons (fun _ hd => hd), hcreate, Composite.actionIds,
                List.mem_cons, or_assoc]
          | orComposite =>
              rw [getAction, hcreate, Composite.actionIds, List.mem_singleton]
              all_goals simp
          | repeatComposite =>
              rw [getAction, hcreate, Composite.actionIds, List.mem_singleton]
              all_goals simp

variable {t : ParsedTree} {extra : Nat} {w : World}

/-- The action of a node is the one its sons call for. -/
theorem HasStrategy.isSend {kind : NodeKind} {id : Nat} {name : Bytes} {sons : List Composite}
    (h : w.HasStrategy id kind sons) :
    (w.actionOf (.node kind id name sons)).isSend =
      (Composite.node kind id name sons).isSend := by
  cases kind with
  | composite =>
      have hs : w.strategy id = some (factoryAction sons) := h
      rw [actionOf, hs]
      rfl
  | orComposite =>
      obtain ⟨n, hn⟩ := h
      rw [actionOf, hn]
      rfl
  | repeatComposite =>
      have hs : w.strategy id = some .repeatAction := h
      rw [actionOf, hs]
      rfl

/-- A node without an action has no data.  The data of any other node are those of the
action its sons call for. -/
theorem getDataSons_eq (h : w.Valid t extra) {kind : NodeKind} {id : Nat} {name : Bytes}
    {sons : List Composite} (hc : .node kind id name sons ∈ t.root.nodes) :
    w.getDataSons id sons.length =
      if (w.strategy id).isSome then (Composite.node kind id name sons).dataSons else [] := by
  rw [getDataSons]
  cases hs : w.strategy id with
  | none => rfl
  | some a =>
      obtain ⟨_, hw, _⟩ := createAction_visited h hc
      rw [createAction_of_some hs] at hw
      rw [Option.map_some, Option.getD_some, Option.isSome_some, if_pos rfl, Composite.dataSons]
      cases kind with
      | composite => rw [Option.some.inj (hs.symm.trans hw)]
      | orComposite =>
          obtain ⟨n, hn⟩ := hw
          rw [Option.some.inj (hs.symm.trans hn)]
          rfl
      | repeatComposite => rw [Option.some.inj (hs.symm.trans hw)]

end World

namespace AnomalyInjector

variable {t : ParsedTree} {extra : Nat}

/-- What a search below a node finds, and which nodes have actions behind it. -/
structure Found (t : ParsedTree) (extra : Nat) (w : World) (sends : List Composite)
    (ids : List Nat) (p : List Composite × World) : Prop where
  sends : p.1 = sends
  valid : p.2.Valid t extra
  actions : ∀ i, (p.2.strategy i).isSome = true ↔ (w.strategy i).isSome = true ∨ i ∈ ids

theorem findSendComposite_found (c : Composite) (hc : c ∈ t.root.nodes) {w : World}
    (h : w.Valid t extra) :
    Found t extra w c.sendsBelow c.searchedIds (findSendComposite c w) := by
  induction c using Composite.induction generalizing w with
  | h c ih =>
      have hsons : ∀ cs : List Composite, (∀ d ∈ cs, d ∈ c.sons) → ∀ {w : World},
          w.Valid t extra → Found t extra w (Composite.sendsAmong cs)
            (Composite.searchedIdsOf cs) (findSendSons cs w) := by
        intro cs
        induction cs with
        | nil =>
            intro _ w h
            exact ⟨rfl, h, fun i => ⟨.inl, fun hi => hi.resolve_right nofun⟩⟩
        | cons d ds ihds =>
            intro hmem w h
            have hd := hmem d List.mem_cons_self
            have hdn := Composite.nodes_trans hc (Composite.son_mem_nodes hd)
            have hvalid := (World.getAction_visited d hdn h).1.valid
            have hactions := World.isSome_getAction d w
            have hsend : ((w.getAction d).actionOf d).isSend = d.isSend := by
              cases d with
              | leaf => rfl
              | node => exact (World.getAction_hasStrategy hdn h).isSend
            rw [findSendSons, Composite.sendsAmong, Composite.searchedIdsOf]
            simp only [hsend]
            cases d.isSend with
            | true =>
                have hrest := ihds (fun e he => hmem e (List.mem_cons_of_mem _ he)) hvalid
                refine ⟨?_, hrest.valid, fun i => ?_⟩
                · simp only [if_true]
                  rw [hrest.sends]
                · simp only [if_true]
                  rw [hrest.actions, hactions, List.append_nil, List.mem_append, or_assoc]
            | false =>
                have hbelow := ih d hd hdn hvalid
                have hrest := ihds (fun e he => hmem e (List.mem_cons_of_mem _ he)) hbelow.valid
                refine ⟨?_, hrest.valid, fun i => ?_⟩
                · simp only [Bool.false_eq_true, if_false]
                  rw [hbelow.sends, hrest.sends]
                · simp only [Bool.false_eq_true, if_false]
                  rw [hrest.actions, hbelow.actions, hactions, List.mem_append, List.mem_append,
                    or_assoc, or_assoc, or_assoc]
      cases c with
      | leaf => exact ⟨rfl, h, fun i => ⟨.inl, fun hi => hi.resolve_right nofun⟩⟩
      | node kind id name sons => exact hsons sons (fun _ hd => hd) h

end AnomalyInjector

/-! ## The nodes below a send -/

namespace Composite

/-- The nodes of a tree have different ids. -/
abbrev Distinct (c : Composite) : Prop := (c.nodes.map id).Nodup

theorem Distinct.son {c d : Composite} (h : c.Distinct) (hd : d ∈ c.sons) : d.Distinct := by
  rw [Distinct, nodes_eq, List.map_cons, List.nodup_cons, List.map_flatMap,
    List.nodup_flatMap] at h
  exact h.2.1 d hd

theorem Distinct.node {c d : Composite} (h : c.Distinct) (hd : d ∈ c.nodes) : d.Distinct := by
  induction c using Composite.induction with
  | h c ih =>
      rw [nodes_eq, List.mem_cons] at hd
      obtain rfl | hd := hd
      · exact h
      · obtain ⟨e, he, hd⟩ := List.mem_flatMap.mp hd
        exact ih e he (h.son he) hd

theorem Distinct.root_notMem {c d : Composite} (h : c.Distinct) (hd : d ∈ c.sons) :
    c.id ∉ d.nodes.map id := by
  rw [Distinct, nodes_eq, List.map_cons, List.nodup_cons, List.map_flatMap] at h
  exact fun hmem => h.1 (List.mem_flatMap.mpr ⟨d, hd, hmem⟩)

/-- No node belongs to two sons. -/
theorem Distinct.son_eq {c d e : Composite} (h : c.Distinct) (hd : d ∈ c.sons) (he : e ∈ c.sons)
    {i : Nat} (hid : i ∈ d.nodes.map id) (hie : i ∈ e.nodes.map id) : d = e := by
  rw [Distinct, nodes_eq, List.map_cons, List.nodup_cons, List.map_flatMap,
    List.nodup_flatMap] at h
  by_contra hne
  have hsymm : Std.Symm (Function.onFun List.Disjoint fun d : Composite => d.nodes.map id) :=
    ⟨fun _ _ hdis => hdis.symm⟩
  exact h.2.2.forall hd he hne hid hie

theorem sendsBelow_subset {c s : Composite} (hs : s ∈ c.sendsBelow) : s ∈ c.nodes := by
  induction c using Composite.induction with
  | h c ih =>
      obtain ⟨d, hd, ⟨_, rfl⟩ | ⟨_, hs⟩⟩ := mem_sendsBelow.mp hs
      · exact son_mem_nodes hd
      · exact nodes_trans (son_mem_nodes hd) (ih d hd hs)

theorem isSend_of_mem_sendsBelow {c s : Composite} (hs : s ∈ c.sendsBelow) : s.isSend = true := by
  induction c using Composite.induction with
  | h c ih =>
      obtain ⟨d, hd, ⟨hsend, rfl⟩ | ⟨_, hs⟩⟩ := mem_sendsBelow.mp hs
      · exact hsend
      · exact ih d hd hs

theorem isLeaf_of_isSend {c : Composite} (h : c.isSend = true) : c.isLeaf = false := by
  cases c with
  | leaf => cases h
  | node => rfl

theorem ids_subset {c d : Composite} (hd : d ∈ c.nodes) {i : Nat} (hi : i ∈ d.nodes.map id) :
    i ∈ c.nodes.map id := by
  obtain ⟨e, he, rfl⟩ := List.mem_map.mp hi
  exact List.mem_map_of_mem (nodes_trans hd he)

/-- The outermost sends are other nodes than the root. -/
theorem Distinct.notMem_sendsBelow {c : Composite} (h : c.Distinct) : c ∉ c.sendsBelow := by
  intro hself
  obtain ⟨d, hd, hcase⟩ := mem_sendsBelow.mp hself
  refine h.root_notMem hd (List.mem_map_of_mem ?_)
  obtain ⟨_, he⟩ | ⟨_, hs⟩ := hcase
  · rw [he]
    exact mem_nodes_self d
  · exact sendsBelow_subset hs

theorem Distinct.mem_sendsBelow_son {c d e : Composite} (h : c.Distinct) (hd : d ∈ c.sons)
    (he : e ∈ d.nodes) : e ∈ c.sendsBelow ↔
      d.isSend = true ∧ e = d ∨ d.isSend = false ∧ e ∈ d.sendsBelow := by
  rw [mem_sendsBelow]
  refine ⟨?_, fun hcase => ⟨d, hd, hcase⟩⟩
  rintro ⟨d', hd', hcase⟩
  have hed' : e ∈ d'.nodes := by
    obtain ⟨_, rfl⟩ | ⟨_, hs⟩ := hcase
    · exact mem_nodes_self e
    · exact sendsBelow_subset hs
  rw [h.son_eq hd hd' (List.mem_map_of_mem he) (List.mem_map_of_mem hed')]
  exact hcase

/-- A node below a son gets its action with the son or not at all. -/
theorem Distinct.mem_actionIds_son {c d : Composite} (h : c.Distinct) (hd : d ∈ c.sons) {i : Nat}
    (hi : i ∈ d.nodes.map id) :
    i ∈ c.actionIds ↔ c.givesActions = true ∧ i ∈ d.actionIds := by
  have hroot : i ≠ c.id := fun he => h.root_notMem hd (he ▸ hi)
  cases c with
  | leaf => cases hd
  | node kind id name sons =>
      have hne : i ≠ id := hroot
      cases kind with
      | composite =>
          rw [actionIds, actionIdsOf_eq, List.mem_cons, or_iff_right hne, List.mem_flatMap]
          refine ⟨?_, fun hi => ⟨d, hd, hi.2⟩⟩
          rintro ⟨e, he, hie⟩
          exact ⟨rfl, h.son_eq hd he hi (actionIds_subset e i hie) ▸ hie⟩
      | orComposite =>
          rw [actionIds, List.mem_singleton]
          · exact ⟨fun he => absurd he hne, fun hgives => by cases hgives.1⟩
          · simp
      | repeatComposite =>
          rw [actionIds, List.mem_singleton]
          · exact ⟨fun he => absurd he hne, fun hgives => by cases hgives.1⟩
          · simp

theorem Distinct.mem_searchedIds_son {c d : Composite} (h : c.Distinct) (hd : d ∈ c.sons)
    {i : Nat} (hi : i ∈ d.nodes.map id) :
    i ∈ c.searchedIds ↔ i ∈ d.actionIds ∨ d.isSend = false ∧ i ∈ d.searchedIds := by
  rw [mem_searchedIds]
  refine ⟨?_, fun hmem => ⟨d, hd, hmem⟩⟩
  rintro ⟨e, he, hmem⟩
  have hie : i ∈ e.nodes.map id := by
    cases hmem with
    | inl hmem => exact actionIds_subset e i hmem
    | inr hmem => exact searchedIds_subset e i hmem.2
  rw [h.son_eq hd he hi hie]
  exact hmem

/-- Of the nodes below an outermost send, those have actions that get them with the send. -/
theorem Distinct.actions_below_send {c s : Composite} (h : c.Distinct) (hs : s ∈ c.sendsBelow)
    {i : Nat} (hi : i ∈ s.nodes.map id) :
    i ∈ c.actionIds ∨ i ∈ c.searchedIds ↔ i ∈ s.actionIds := by
  induction c using Composite.induction with
  | h c ih =>
      obtain ⟨d, hd, hcase⟩ := mem_sendsBelow.mp hs
      have hsd : s ∈ d.nodes := by
        obtain ⟨_, rfl⟩ | ⟨_, hs⟩ := hcase
        · exact mem_nodes_self s
        · exact sendsBelow_subset hs
      have hid := ids_subset hsd hi
      rw [h.mem_actionIds_son hd hid, h.mem_searchedIds_son hd hid]
      obtain ⟨hsend, rfl⟩ | ⟨hsend, hs⟩ := hcase
      · exact ⟨fun hmem => hmem.elim And.right fun hmem => hmem.resolve_right (by simp [hsend]),
          fun hmem => .inr (.inl hmem)⟩
      · rw [← ih d hd (h.son hd) hs]
        exact ⟨fun hmem => hmem.elim (fun hmem => .inl hmem.2) (Or.imp_right And.right),
          fun hmem => .inr (hmem.imp_right fun hmem => ⟨hsend, hmem⟩)⟩

end Composite

/-- The data of every action are sons, but the value of a `Memorize` that has none. -/
theorem Action.getDataSons_inRange (n : Nat) (a : Action) :
    (∀ k ∈ a.getDataSons n, k < n) ↔ a ≠ .command .memorizeCommand ∨ 3 ≤ n := by
  have hrange : ∀ k ∈ List.range n, k < n := fun k => List.mem_range.mp
  cases a with
  | command c =>
      cases c with
      | memorizeCommand =>
          rw [getDataSons, List.forall_mem_singleton]
          exact ⟨.inr, fun h => h.resolve_left fun hne => hne rfl⟩
      | variableCommand => exact iff_of_true nofun (.inl nofun)
      | _ => exact iff_of_true hrange (.inl nofun)
  | _ => exact iff_of_true hrange (.inl nofun)

theorem Composite.dataSons_inRange (c : Composite) :
    (∀ k ∈ c.dataSons, k < c.sons.length) ↔ c.shortMemorize = false := by
  cases c with
  | leaf => exact ⟨fun _ => rfl, fun _ k hk => by cases hk⟩
  | node kind id name sons =>
      rw [dataSons, Composite.sons, Action.getDataSons_inRange]
      cases kind with
      | composite =>
          rw [shortMemorize, Bool.and_eq_false_iff, decide_eq_false_iff_not,
            decide_eq_false_iff_not, Nat.not_lt]
          exact Iff.rfl
      | orComposite => exact iff_of_true (.inl fun ha => by cases ha) rfl
      | repeatComposite => exact iff_of_true (.inl fun ha => by cases ha) rfl

theorem ParsedTree.distinct (t : ParsedTree) : t.root.Distinct := t.nodup

namespace World

variable {t : ParsedTree} {extra : Nat} {w : World}

/-- `getDataSons` of a node. -/
def dataSonsOf (w : World) : Composite → List Nat
  | .leaf _ _ _ => []
  | .node _ id _ sons => w.getDataSons id sons.length

/-- A path that `inject` goes. -/
def Goes (w : World) : Composite → List Nat → Prop
  | _, [] => True
  | c, k :: p => k ∈ w.dataSonsOf c ∧ ∃ d, c.sons[k]? = some d ∧ Goes w d p

theorem dataSonsOf_of_isSome (h : w.Valid t extra) {c : Composite} (hc : c ∈ t.root.nodes)
    (hsome : (w.strategy c.id).isSome = true) : w.dataSonsOf c = c.dataSons := by
  cases c with
  | leaf => rfl
  | node kind id name sons =>
      have hs : (w.strategy id).isSome = true := hsome
      rw [dataSonsOf, getDataSons_eq h hc, if_pos hs]

theorem dataSonsOf_of_none {c : Composite} (hnone : (w.strategy c.id).isSome ≠ true) :
    w.dataSonsOf c = [] := by
  cases c with
  | leaf => rfl
  | node kind id name sons =>
      have hs : w.strategy id = none := Option.not_isSome_iff_eq_none.mp hnone
      rw [dataSonsOf, getDataSons, hs]
      rfl

/-- The actions in a tree are those its root has handed out. -/
def ActsBelow (w : World) (c : Composite) : Prop :=
  ∀ i ∈ c.nodes.map Composite.id, (w.strategy i).isSome = true ↔ i ∈ c.actionIds

theorem ActsBelow.son {c d : Composite} (h : w.ActsBelow c) (hc : c.Distinct) (hd : d ∈ c.sons)
    (hgives : c.givesActions = true ∨ d.isLeaf = true) : w.ActsBelow d := by
  intro i hi
  rw [h i (Composite.ids_subset (Composite.son_mem_nodes hd) hi), hc.mem_actionIds_son hd hi]
  cases hgives with
  | inl hgives => rw [and_iff_right hgives]
  | inr hleaf =>
      cases d with
      | leaf => exact ⟨fun h => h.2, nofun⟩
      | node => cases hleaf

theorem ActsBelow.isSome {c : Composite} (h : w.ActsBelow c) (hinner : c.isLeaf = false) :
    (w.strategy c.id).isSome = true := by
  rw [h c.id (List.mem_map_of_mem (Composite.mem_nodes_self c))]
  cases c with
  | leaf => cases hinner
  | node kind id name sons => cases kind <;> exact List.mem_cons_self

/-- `inject` goes a path to a leaf, or to a node with an action, if and only if the path
passes.  By induction on the path. -/
theorem passes_iff (h : w.Valid t extra) {c : Composite} (hc : c ∈ t.root.nodes)
    (hdistinct : c.Distinct) (hacts : w.ActsBelow c) (p : List Nat) :
    c.Passes p ↔ w.Goes c p ∧ ∀ d, c.nodeAt p = some d → d.isLeaf = false →
      (w.strategy d.id).isSome = true := by
  induction p generalizing c with
  | nil =>
      refine ⟨fun _ => ⟨trivial, ?_⟩, fun _ => trivial⟩
      intro d hd
      cases hd
      exact hacts.isSome
  | cons k p ih =>
      cases hleaf : c.isLeaf with
      | true =>
          cases c with
          | leaf => exact ⟨fun hp => absurd hp.1 nofun, fun hp => absurd hp.1.1 nofun⟩
          | node => cases hleaf
      | false =>
          rw [Composite.Passes, Goes, dataSonsOf_of_isSome h hc (hacts.isSome hleaf), and_assoc]
          refine and_congr_right fun _ => ?_
          cases hd : c.sons[k]? with
          | none => simp
          | some d =>
              have hmem := List.mem_of_getElem? hd
              have hdn := Composite.nodes_trans hc (Composite.son_mem_nodes hmem)
              have hnode : c.nodeAt (k :: p) = d.nodeAt p := by
                rw [Composite.nodeAt, hd, Option.bind_some]
              simp only [Option.some.injEq, exists_eq_left', hnode]
              by_cases hgives : c.givesActions = true ∨ d.isLeaf = true
              · rw [and_iff_right hgives]
                exact ih hdn (hdistinct.son hmem) (hacts.son hdistinct hmem hgives)
              · -- The son has no action, and neither has any node below it.
                have hinner : d.isLeaf = false := by
                  rw [← Bool.not_eq_true]
                  exact fun hd => hgives (.inr hd)
                have hnone : (w.strategy d.id).isSome ≠ true := by
                  have hid := List.mem_map_of_mem (f := Composite.id) (Composite.mem_nodes_self d)
                  rw [Ne, hacts d.id (Composite.ids_subset (Composite.son_mem_nodes hmem) hid),
                    hdistinct.mem_actionIds_son hmem hid]
                  exact fun hi => hgives (.inl hi.1)
                refine iff_of_false (fun hp => hgives hp.1) fun hp => ?_
                cases p with
                | nil => exact hnone (hp.2 d rfl hinner)
                | cons j p =>
                    have hj := hp.1.1
                    rw [dataSonsOf_of_none hnone] at hj
                    cases hj

end World

/-! ## What happens to a leaf -/

theorem Composite.nodeAt_append (c : Composite) (p q : List Nat) :
    c.nodeAt (p ++ q) = (c.nodeAt p).bind fun d => d.nodeAt q := by
  induction p generalizing c with
  | nil => rfl
  | cons k p ih =>
      rw [List.cons_append, nodeAt, nodeAt]
      cases c.sons[k]? with
      | none => rfl
      | some d => exact ih d

theorem Composite.mem_nodes_of_nodeAt {c d : Composite} {p : List Nat}
    (h : c.nodeAt p = some d) : d ∈ c.nodes := by
  induction p generalizing c with
  | nil =>
      cases h
      exact mem_nodes_self _
  | cons k p ih =>
      obtain ⟨e, he, h⟩ := Option.bind_eq_some_iff.mp h
      exact nodes_trans (son_mem_nodes (List.mem_of_getElem? he)) (ih h)

namespace AnomalyInjector

variable {w : World} {rand : Nat → Nat → Nat → Nat}

theorem lt_makeNode (t : Tree) (nextId : Nat) : nextId < (makeNode t nextId).2 := by
  refine @Tree.rec (fun t => ∀ n, n < (makeNode t n).2) (fun ts => ∀ n, n ≤ (makeSons ts n).2)
    ?_ ?_ ?_ ?_ t nextId
  · exact fun _ _ n => Nat.lt_succ_self n
  · exact fun _ _ _ ih n => Nat.lt_of_succ_le (ih (n + 1))
  · exact fun n => Nat.le_refl n
  · exact fun _ _ iht ihts n => Nat.le_of_lt (Nat.lt_of_lt_of_le (iht n) (ihts _))

theorem le_injectLeaf {kind : LeafKind} {id : Nat} {name : Bytes} {c : Composite}
    {st st' : Injection} (h : injectLeaf rand kind id name st = some (c, st')) :
    st.nextId ≤ st'.nextId := by
  cases kind with
  | stringLeaf =>
      rw [injectLeaf] at h
      split at h
      · cases h
      · cases h
        exact Nat.le_refl _
      · cases h
        exact Nat.le_of_lt (lt_makeNode _ _)
  | hexLeaf => cases h; exact Nat.le_succ _
  | decLeaf => cases h; exact Nat.le_succ _
  | binLeaf => cases h; exact Nat.le_succ _
  | commandComposite => cases h; exact Nat.le_succ _

theorem le_injectSons {datasons : List Nat} {cs : List Composite}
    (hson : ∀ d ∈ cs, ∀ {d' : Composite} {st st' : Injection},
      inject w rand d st = some (d', st') → st.nextId ≤ st'.nextId)
    {k : Nat} {cs' : List Composite} {st st' : Injection}
    (h : injectSons w rand datasons k cs st = some (cs', st')) : st.nextId ≤ st'.nextId := by
  induction cs generalizing k cs' st st' with
  | nil =>
      cases h
      exact Nat.le_refl _
  | cons c cs ih =>
      obtain ⟨hc, hcs⟩ := List.forall_mem_cons.mp hson
      rw [injectSons] at h
      obtain ⟨⟨c', st₁⟩, hhead, h⟩ := Option.bind_eq_some_iff.mp h
      obtain ⟨⟨ds, st₂⟩, hds, h⟩ := Option.map_eq_some_iff.mp h
      cases h
      refine Nat.le_trans ?_ (ih hcs hds)
      split at hhead
      · exact hc hhead
      · cases hhead
        exact Nat.le_refl _

/-- The counter of the ids only grows. -/
theorem le_inject {c c' : Composite} {st st' : Injection}
    (h : inject w rand c st = some (c', st')) : st.nextId ≤ st'.nextId := by
  induction c using Composite.induction generalizing c' st st' with
  | h c ih =>
      cases c with
      | leaf => exact le_injectLeaf h
      | node kind id name sons =>
          rw [inject] at h
          split at h
          · obtain ⟨⟨sons', st₁⟩, hsons, h⟩ := Option.map_eq_some_iff.mp h
            cases h
            exact le_injectSons (fun d hd _ _ _ => ih d hd) hsons
          · cases h

/-- A node handed to `inject` when the counter of the ids has reached `n`. -/
def InjectedTo (w : World) (rand : Nat → Nat → Nat → Nat) (n : Nat) (s b : Composite) : Prop :=
  ∃ st st', n ≤ st.nextId ∧ inject w rand s st = some (b, st')

/-- Each son is injected or kept. -/
theorem getElem?_injectSons {datasons : List Nat} {n k : Nat} {cs cs' : List Composite}
    {st st' : Injection} (hle : n ≤ st.nextId)
    (h : injectSons w rand datasons k cs st = some (cs', st')) {i : Nat} {d : Composite}
    (hd : cs[i]? = some d) : ∃ d', cs'[i]? = some d' ∧
      if k + i ∈ datasons then InjectedTo w rand n d d' else d' = d := by
  induction cs generalizing k cs' st st' i with
  | nil => cases hd
  | cons c cs ih =>
      rw [injectSons] at h
      obtain ⟨⟨c', st₁⟩, hc, h⟩ := Option.bind_eq_some_iff.mp h
      obtain ⟨⟨ds, st₂⟩, hds, h⟩ := Option.map_eq_some_iff.mp h
      cases h
      cases i with
      | zero =>
          cases hd
          refine ⟨c', rfl, ?_⟩
          rw [Nat.add_zero]
          split
          · next hmem =>
              rw [if_pos hmem] at hc
              exact ⟨st, st₁, hle, hc⟩
          · next hmem =>
              rw [if_neg hmem] at hc
              cases hc
              rfl
      | succ i =>
          have hle' : st.nextId ≤ st₁.nextId := by
            split at hc
            · exact le_inject hc
            · cases hc
              exact Nat.le_refl _
          obtain ⟨d', hd', hcase⟩ := ih (Nat.le_trans hle hle') hds hd
          rw [Nat.add_right_comm, Nat.add_assoc] at hcase
          exact ⟨d', hd', hcase⟩

/-- A leaf on a path that `inject` goes is handed to the injector.  Any other leaf stays. -/
theorem InjectedTo.leafAt {n : Nat} {c c' : Composite} (h : InjectedTo w rand n c c')
    {p : List Nat} {kind : LeafKind} {id : Nat} {name : Bytes}
    (hleaf : c.nodeAt p = some (.leaf kind id name)) :
    (w.Goes c p → ∃ d, InjectedTo w rand n (.leaf kind id name) d ∧ c'.nodeAt p = some d) ∧
    (¬ w.Goes c p → c'.nodeAt p = some (.leaf kind id name)) := by
  induction p generalizing c c' with
  | nil =>
      cases hleaf
      exact ⟨fun _ => ⟨c', h, rfl⟩, fun hnot => absurd trivial hnot⟩
  | cons k p ih =>
      cases c with
      | leaf => cases hleaf
      | node nodeKind nodeId nodeName sons =>
          obtain ⟨st, st', hle, h⟩ := h
          rw [inject] at h
          split at h
          · obtain ⟨⟨sons', st₁⟩, hsons, h⟩ := Option.map_eq_some_iff.mp h
            cases h
            obtain ⟨d, hd, hleaf⟩ := Option.bind_eq_some_iff.mp hleaf
            obtain ⟨d', hd', hcase⟩ := getElem?_injectSons hle hsons hd
            have hnode : (Composite.node nodeKind nodeId nodeName sons').nodeAt (k :: p) =
                d'.nodeAt p := by
              rw [Composite.nodeAt, Composite.sons, hd', Option.bind_some]
            have hgoes : w.Goes (.node nodeKind nodeId nodeName sons) (k :: p) ↔
                k ∈ w.getDataSons nodeId sons.length ∧ w.Goes d p := by
              rw [World.Goes, hd]
              simp only [Option.some.injEq, exists_eq_left']
              rfl
            rw [hnode, hgoes]
            rw [Nat.zero_add] at hcase
            split at hcase
            · next hmem =>
                rw [and_iff_right hmem]
                exact ih hcase hleaf
            · next hmem =>
                rw [hcase]
                exact ⟨fun hg => absurd hg.1 hmem, fun _ => hleaf⟩
          · cases h

/-! ## Accesses past the end -/

theorem isSome_injectLeaf {kind : LeafKind} {id : Nat} {name : Bytes}
    (h : kind = .stringLeaf → (trim name).isSome = true) (st : Injection) :
    (injectLeaf rand kind id name st).isSome = true := by
  cases kind with
  | stringLeaf =>
      obtain ⟨text, htext⟩ := Option.isSome_iff_exists.mp (h rfl)
      rw [injectLeaf, htext]
      cases text <;> rfl
  | hexLeaf => rfl
  | decLeaf => rfl
  | binLeaf => rfl
  | commandComposite => rfl

theorem isSome_injectSons {inside : Composite → Prop} {cs : List Composite}
    (hinside : ∀ d ∈ cs, ∀ st, (inject w rand d st).isSome = true ↔ inside d)
    (datasons : List Nat) (k : Nat) (st : Injection) :
    (injectSons w rand datasons k cs st).isSome = true ↔
      ∀ i d, cs[i]? = some d → k + i ∈ datasons → inside d := by
  induction cs generalizing k st with
  | nil => exact ⟨fun _ => nofun, fun _ => rfl⟩
  | cons c cs ih =>
      obtain ⟨hc, hcs⟩ := List.forall_mem_cons.mp hinside
      have hhead : (if k ∈ datasons then inject w rand c st else some (c, st)).isSome = true ↔
          (k ∈ datasons → inside c) := by
        split
        · next hmem => rw [hc, forall_prop_of_true hmem]
        · next hmem => exact iff_of_true rfl fun h => absurd h hmem
      have hall : (∀ i d, (c :: cs)[i]? = some d → k + i ∈ datasons → inside d) ↔
          (k ∈ datasons → inside c) ∧
            ∀ i d, cs[i]? = some d → k + 1 + i ∈ datasons → inside d := by
        refine ⟨fun h => ⟨h 0 c rfl, fun i d hd hmem => ?_⟩, fun h i d hd hmem => ?_⟩
        · exact h (i + 1) d hd (by rwa [← Nat.add_assoc, Nat.add_right_comm])
        · cases i with
          | zero =>
              cases hd
              exact h.1 hmem
          | succ i => exact h.2 i d hd (by rwa [Nat.add_right_comm])
      rw [hall, ← hhead, injectSons]
      cases hson : if k ∈ datasons then inject w rand c st else some (c, st) with
      | none => exact iff_of_false nofun fun h => nomatch h.1
      | some p => rw [Option.bind_some, Option.isSome_map, ih hcs, and_iff_right Option.isSome_some]

/-- `inject` ends if and only if every node it comes to has the sons it asks for. -/
theorem isSome_inject {c : Composite} (hquoted : c.Quoted) (st : Injection) :
    (inject w rand c st).isSome = true ↔
      ∀ p d, c.nodeAt p = some d → w.Goes c p → ∀ k ∈ w.dataSonsOf d, k < d.sons.length := by
  induction c using Composite.induction generalizing st with
  | h c ih =>
      cases c with
      | leaf kind id name =>
          refine iff_of_true (isSome_injectLeaf ?_ st) fun p d hd _ => ?_
          · rintro rfl
            exact hquoted _ (Composite.mem_nodes_self _)
          · cases p with
            | nil =>
                cases hd
                nofun
            | cons => cases hd
      | node kind id name sons =>
          have hson : ∀ d ∈ sons, ∀ st, (inject w rand d st).isSome = true ↔ ∀ p e,
              d.nodeAt p = some e → w.Goes d p → ∀ k ∈ w.dataSonsOf e, k < e.sons.length :=
            fun d hd => ih d hd fun e he => hquoted e (Composite.nodes_trans
              (Composite.son_mem_nodes (c := .node kind id name sons) hd) he)
          rw [inject]
          split
          · next hrange =>
              rw [Option.isSome_map, isSome_injectSons hson]
              refine ⟨fun h p d hd hgoes => ?_, fun h i d hd hmem p e he hgoes => ?_⟩
              · cases p with
                | nil =>
                    cases hd
                    exact hrange
                | cons k p =>
                    obtain ⟨hk, e, he, hgoes⟩ := hgoes
                    rw [Composite.nodeAt, he, Option.bind_some] at hd
                    exact h k e he (by rwa [Nat.zero_add]) p d hd hgoes
              · refine h (i :: p) e ?_ ⟨by rwa [Nat.zero_add] at hmem, d, hd, hgoes⟩
                rw [Composite.nodeAt, Composite.sons, hd]
                exact he
          · next hrange =>
              exact iff_of_false Bool.false_ne_true fun h => hrange (h [] _ rfl trivial)

/-! ## The sends -/

/-- `inject` changes what is below a node, not the node. -/
theorem InjectedTo.id_eq {n : Nat} {s b : Composite} (h : InjectedTo w rand n s b)
    (hs : s.isLeaf = false) : b.id = s.id := by
  obtain ⟨st, st', _, h⟩ := h
  cases s with
  | leaf => cases hs
  | node kind id name sons =>
      rw [inject] at h
      split at h
      · obtain ⟨p, _, h⟩ := Option.map_eq_some_iff.mp h
        cases h
        rfl
      · cases h

/-- The loop of `main` injects the sends it processes, in their order. -/
theorem injectSends_forall₂ {returned : Nat → Bool} {k : Nat} {cs bs : List Composite}
    {n : Nat} {st st' : Injection} (hle : n ≤ st.nextId)
    (h : injectSends w rand returned k cs st = some (bs, st')) :
    List.Forall₂ (InjectedTo w rand n) (Composite.processed returned k cs) bs := by
  induction cs generalizing k bs st st' with
  | nil =>
      cases h
      exact .nil
  | cons c cs ih =>
      rw [injectSends] at h
      obtain ⟨⟨b, st₁⟩, hb, h⟩ := Option.bind_eq_some_iff.mp h
      rw [Composite.processed]
      split at h
      · next hreturned =>
          obtain ⟨⟨ds, st₂⟩, hds, h⟩ := Option.map_eq_some_iff.mp h
          cases h
          rw [if_pos hreturned]
          exact .cons ⟨st, st₁, hle, hb⟩ (ih (Nat.le_trans hle (le_inject hb)) hds)
      · next hreturned =>
          cases h
          rw [if_neg hreturned]
          exact .cons ⟨st, _, hle, hb⟩ .nil

theorem isSome_injectSends {inside : Composite → Prop} {returned : Nat → Bool} {k : Nat}
    {cs : List Composite} (hinside : ∀ s ∈ cs, ∀ st, (inject w rand s st).isSome = true ↔ inside s)
    (st : Injection) : (injectSends w rand returned k cs st).isSome = true ↔
      ∀ s ∈ Composite.processed returned k cs, inside s := by
  induction cs generalizing k st with
  | nil => exact iff_of_true rfl nofun
  | cons c cs ih =>
      obtain ⟨hc, hcs⟩ := List.forall_mem_cons.mp hinside
      rw [injectSends, Composite.processed, List.forall_mem_cons, ← hc st]
      cases inject w rand c st with
      | none => exact iff_of_false Bool.false_ne_true fun h => Bool.false_ne_true h.1
      | some p =>
          rw [Option.bind_some, and_iff_right Option.isSome_some]
          cases returned k with
          | true => rw [if_pos rfl, Option.isSome_map, ih hcs, if_pos rfl]
          | false => exact iff_of_true rfl nofun

theorem mem_of_mem_processed {returned : Nat → Bool} {k : Nat} {cs : List Composite}
    {s : Composite} (h : s ∈ Composite.processed returned k cs) : s ∈ cs := by
  induction cs generalizing k with
  | nil => cases h
  | cons c cs ih =>
      rw [Composite.processed] at h
      cases List.mem_cons.mp h with
      | inl he => exact he ▸ List.mem_cons_self
      | inr h =>
          split at h
          · exact List.mem_cons_of_mem _ (ih h)
          · cases h

/-! ## The tree around the sends -/

theorem branchOf_eq_none {branches : List Composite} {id : Nat} :
    branchOf branches id = none ↔ id ∉ branches.map Composite.id := by
  rw [branchOf, List.find?_eq_none, List.mem_map]
  simp only [beq_iff_eq]
  exact ⟨fun h ⟨b, hb, he⟩ => h b hb he, fun h b hb he => h ⟨b, hb, he⟩⟩

theorem attach_of_branchOf {branches : List Composite} {c b : Composite}
    (h : branchOf branches c.id = some b) (hinner : c.isLeaf = false) : attach branches c = b := by
  cases c with
  | leaf => cases hinner
  | node kind id name sons =>
      change branchOf branches id = some b at h
      rw [attach, h, Option.getD_some]

/-- Without branches below a node the node stays as it is. -/
theorem attach_of_notMem {branches : List Composite} {c : Composite}
    (h : ∀ d ∈ c.nodes, d.id ∉ branches.map Composite.id) : attach branches c = c := by
  induction c using Composite.induction with
  | h c ih =>
      cases c with
      | leaf => rw [attach]
      | node kind id name sons =>
          have hson : ∀ d ∈ sons, attach branches d = d := fun d hd => ih d hd fun e he =>
            h e (Composite.nodes_trans
              (Composite.son_mem_nodes (c := .node kind id name sons) hd) he)
          have hsons : attachSons branches sons = sons := by
            clear ih h
            induction sons with
            | nil => rw [attachSons]
            | cons d ds ihds =>
                rw [attachSons, hson d List.mem_cons_self,
                  ihds fun e he => hson e (List.mem_cons_of_mem _ he)]
          have hroot : branchOf branches id = none :=
            branchOf_eq_none.mpr (h _ (Composite.mem_nodes_self _))
          rw [attach, hroot, Option.getD_none, hsons]

theorem getElem?_attachSons (branches cs : List Composite) (k : Nat) :
    (attachSons branches cs)[k]? = cs[k]?.map (attach branches) := by
  induction cs generalizing k with
  | nil => rfl
  | cons c cs ih =>
      cases k with
      | zero => rfl
      | succ k => exact ih k

/-- A leaf below an outermost send is found in the branch of the send, if there is one.
Any other leaf stays where it is.  By induction on the path. -/
theorem nodeAt_attach {branches : List Composite} {c : Composite} (hdistinct : c.Distinct)
    (hsends : ∀ d ∈ c.nodes, d.id ∈ branches.map Composite.id → d ∈ c.sendsBelow)
    {p : List Nat} {kind : LeafKind} {id : Nat} {name : Bytes}
    (hleaf : c.nodeAt p = some (.leaf kind id name)) :
    (attach branches c).nodeAt p =
      ((c.sendOn p).bind fun sr => (branchOf branches sr.1.id).map fun b =>
        b.nodeAt sr.2).getD (some (.leaf kind id name)) := by
  induction p generalizing c with
  | nil =>
      cases hleaf
      rfl
  | cons k p ih =>
      cases c with
      | leaf => cases hleaf
      | node nodeKind nodeId nodeName sons =>
          obtain ⟨d, hd, hleaf⟩ := Option.bind_eq_some_iff.mp hleaf
          change sons[k]? = some d at hd
          have hmem : d ∈ (Composite.node nodeKind nodeId nodeName sons).sons :=
            List.mem_of_getElem? hd
          have hroot : branchOf branches nodeId = none := branchOf_eq_none.mpr fun hid =>
            hdistinct.notMem_sendsBelow (hsends _ (Composite.mem_nodes_self _) hid)
          have hbelow : ∀ e ∈ d.nodes, e.id ∈ branches.map Composite.id →
              d.isSend = true ∧ e = d ∨ d.isSend = false ∧ e ∈ d.sendsBelow := fun e he hid =>
            (hdistinct.mem_sendsBelow_son hmem he).mp
              (hsends e (Composite.nodes_trans (Composite.son_mem_nodes hmem) he) hid)
          rw [attach, hroot, Option.getD_none, Composite.nodeAt, Composite.sendOn,
            Composite.sons, Composite.sons, getElem?_attachSons, hd, Option.map_some,
            Option.bind_some, Option.bind_some]
          cases hsend : d.isSend with
          | true =>
              rw [if_pos rfl, Option.bind_some]
              cases hbranch : branchOf branches d.id with
              | some b =>
                  rw [attach_of_branchOf hbranch (Composite.isLeaf_of_isSend hsend)]
                  rfl
              | none =>
                  have hkept : attach branches d = d := by
                    refine attach_of_notMem fun e he hid => ?_
                    obtain ⟨_, rfl⟩ | ⟨hnot, _⟩ := hbelow e he hid
                    · exact branchOf_eq_none.mp hbranch hid
                    · rw [hsend] at hnot
                      cases hnot
                  rw [hkept]
                  exact hleaf
          | false =>
              rw [if_neg Bool.false_ne_true]
              refine ih (hdistinct.son hmem) (fun e he hid => ?_) hleaf
              obtain ⟨hnot, _⟩ | ⟨_, hs⟩ := hbelow e he hid
              · rw [hsend] at hnot
                cases hnot
              · exact hs

/-- A path to the outermost send on it, and on from there. -/
theorem sendOn_eq_some {c s : Composite} {p r : List Nat} (h : c.sendOn p = some (s, r)) :
    s ∈ c.sendsBelow ∧ c.nodeAt p = s.nodeAt r := by
  induction p generalizing c with
  | nil => cases h
  | cons k p ih =>
      obtain ⟨d, hd, h⟩ := Option.bind_eq_some_iff.mp h
      have hmem := List.mem_of_getElem? hd
      rw [Composite.nodeAt, hd, Option.bind_some]
      cases hsend : d.isSend with
      | true =>
          rw [if_pos hsend] at h
          cases h
          exact ⟨Composite.mem_sendsBelow.mpr ⟨s, hmem, .inl ⟨hsend, rfl⟩⟩, rfl⟩
      | false =>
          rw [if_neg (by rw [hsend]; exact Bool.false_ne_true)] at h
          obtain ⟨hs, hat⟩ := ih h
          exact ⟨Composite.mem_sendsBelow.mpr ⟨d, hmem, .inr ⟨hsend, hs⟩⟩, hat⟩

theorem exists_sendOn {c s : Composite} (hs : s ∈ c.sendsBelow) (r : List Nat) :
    ∃ p, c.sendOn p = some (s, r) := by
  induction c using Composite.induction with
  | h c ih =>
      obtain ⟨d, hd, hcase⟩ := Composite.mem_sendsBelow.mp hs
      obtain ⟨k, hk⟩ := List.mem_iff_getElem?.mp hd
      obtain ⟨hsend, rfl⟩ | ⟨hsend, hs⟩ := hcase
      · refine ⟨k :: r, ?_⟩
        rw [Composite.sendOn, hk, Option.bind_some, if_pos hsend]
      · obtain ⟨p, hp⟩ := ih d hd hs
        refine ⟨k :: p, ?_⟩
        rw [Composite.sendOn, hk, Option.bind_some, hsend, if_neg Bool.false_ne_true, hp]

/-- The branches are found by the ids of the nodes they have come from. -/
theorem branchOf_forall₂ {n : Nat} {cs bs : List Composite}
    (h : List.Forall₂ (InjectedTo w rand n) cs bs) (hinner : ∀ c ∈ cs, c.isLeaf = false) :
    bs.map Composite.id = cs.map Composite.id ∧
      ∀ b ∈ bs, ∃ c ∈ cs, c.id = b.id ∧ InjectedTo w rand n c b := by
  induction h with
  | nil => exact ⟨rfl, nofun⟩
  | @cons c b cs bs hcb _ ih =>
      obtain ⟨hc, hcs⟩ := List.forall_mem_cons.mp hinner
      obtain ⟨hids, hbs⟩ := ih hcs
      refine ⟨by rw [List.map_cons, List.map_cons, hids, hcb.id_eq hc], ?_⟩
      rw [List.forall_mem_cons]
      refine ⟨⟨c, List.mem_cons_self, (hcb.id_eq hc).symm, hcb⟩, fun b hb => ?_⟩
      obtain ⟨d, hd, hdb⟩ := hbs b hb
      exact ⟨d, List.mem_cons_of_mem _ hd, hdb⟩

/-! ## Coverage -/

section

variable (t : ParsedTree) (g : TSGenerator)

/-- The world `inject` runs in. -/
def searched : List Composite × World :=
  findSendComposite t.root (({ generator := g } : World).getAction t.root)

theorem searched_found : (searched t g).1 = t.root.sendsBelow ∧ (searched t g).2.Valid t 0 ∧
    ∀ s ∈ t.root.sendsBelow, (searched t g).2.ActsBelow s := by
  have hroot := Composite.mem_nodes_self t.root
  have hfresh : ({ generator := g } : World).Valid t 0 := ⟨[], .initial t g {}⟩
  have hvalid := (World.getAction_visited _ hroot hfresh).1.valid
  have hfound := findSendComposite_found t.root hroot hvalid
  refine ⟨hfound.sends, hfound.valid, fun s hs i hi => ?_⟩
  rw [searched, hfound.actions, World.isSome_getAction, ← t.distinct.actions_below_send hs hi]
  exact or_congr_left (or_iff_right Bool.false_ne_true)

variable {t g}

/-- `inject` ends if and only if no `Memorize` it comes to is short of its value. -/
theorem isSome_inject_send (hquoted : t.root.Quoted) {s : Composite}
    (hs : s ∈ t.root.sendsBelow) (rand : Nat → Nat → Nat → Nat) (st : Injection) :
    (inject (searched t g).2 rand s st).isSome = true ↔
      ∀ p d, s.nodeAt p = some d → s.Passes p → d.shortMemorize = false := by
  obtain ⟨_, hvalid, hacts⟩ := searched_found t g
  have hsn := Composite.sendsBelow_subset hs
  have hsd := t.distinct.node hsn
  rw [isSome_inject fun e he => hquoted e (Composite.nodes_trans hsn he)]
  refine forall₂_congr fun p d => forall_congr' fun hd => ?_
  have hdn := Composite.nodes_trans hsn (Composite.mem_nodes_of_nodeAt hd)
  rw [World.passes_iff hvalid hsn hsd (hacts s hs), hd, ← Composite.dataSons_inRange]
  by_cases hsome : ((searched t g).2.strategy d.id).isSome = true
  · rw [World.dataSonsOf_of_isSome hvalid hdn hsome]
    refine ⟨fun h hp => h hp.1, fun h hp => h ⟨hp, ?_⟩⟩
    rintro e he _
    cases he
    exact hsome
  · rw [World.dataSonsOf_of_none hsome]
    refine iff_of_true (fun _ => nofun) fun hp k hk => ?_
    cases d with
    | leaf => cases hk
    | node => exact absurd (hp.2 _ rfl rfl) hsome

/-- A path from an outermost send to a leaf. -/
theorem goes_iff_passes {s : Composite} (hs : s ∈ t.root.sendsBelow) {p : List Nat}
    {kind : LeafKind} {id : Nat} {name : Bytes} (hleaf : s.nodeAt p = some (.leaf kind id name)) :
    (searched t g).2.Goes s p ↔ s.Passes p := by
  obtain ⟨_, hvalid, hacts⟩ := searched_found t g
  have hsn := Composite.sendsBelow_subset hs
  rw [World.passes_iff hvalid hsn (t.distinct.node hsn) (hacts s hs), hleaf]
  refine (and_iff_left fun d hd hinner => ?_).symm
  cases hd
  cases hinner

/-- The branches of the sends `main` processes. -/
structure Branches (t : ParsedTree) (g : TSGenerator) (rand : Nat → Nat → Nat → Nat)
    (returned : Nat → Bool) (n : Nat) (branches : List Composite) : Prop where
  ids : branches.map Composite.id =
    (Composite.processed returned 0 t.root.sendsBelow).map Composite.id
  injected : ∀ b ∈ branches, ∃ s ∈ Composite.processed returned 0 t.root.sendsBelow,
    s.id = b.id ∧ InjectedTo (searched t g).2 rand n s b

theorem injectSends_branches {rand : Nat → Nat → Nat → Nat} {returned : Nat → Bool}
    {branches : List Composite} {n : Nat} {st st' : Injection} (hle : n ≤ st.nextId)
    (h : injectSends (searched t g).2 rand returned 0 t.root.sendsBelow st =
      some (branches, st')) : Branches t g rand returned n branches := by
  obtain ⟨hids, hbranches⟩ := branchOf_forall₂ (injectSends_forall₂ hle h) fun s hs =>
    Composite.isLeaf_of_isSend (Composite.isSend_of_mem_sendsBelow (mem_of_mem_processed hs))
  exact ⟨hids, hbranches⟩

/-- A leaf is handed to the injector if it is reached.  Any other leaf stays. -/
theorem Branches.leafAt {rand : Nat → Nat → Nat → Nat} {returned : Nat → Bool}
    {branches : List Composite} {n : Nat} (h : Branches t g rand returned n branches)
    {p : List Nat} {kind : LeafKind} {id : Nat} {name : Bytes}
    (hleaf : t.root.nodeAt p = some (.leaf kind id name)) :
    (t.root.Reached returned p → ∃ d, InjectedTo (searched t g).2 rand n (.leaf kind id name) d ∧
      (attach branches t.root).nodeAt p = some d) ∧
    (¬ t.root.Reached returned p →
      (attach branches t.root).nodeAt p = some (.leaf kind id name)) := by
  have hsame : ∀ s ∈ Composite.processed returned 0 t.root.sendsBelow, ∀ d ∈ t.root.nodes,
      s.id = d.id → s = d := fun s hs d hd =>
    t.eq_of_id_eq (Composite.sendsBelow_subset (mem_of_mem_processed hs)) hd
  have hsends : ∀ d ∈ t.root.nodes, d.id ∈ branches.map Composite.id → d ∈ t.root.sendsBelow := by
    intro d hd hid
    rw [h.ids] at hid
    obtain ⟨s, hs, he⟩ := List.mem_map.mp hid
    exact hsame s hs d hd he ▸ mem_of_mem_processed hs
  rw [nodeAt_attach t.distinct hsends hleaf, Composite.Reached]
  cases hsend : t.root.sendOn p with
  | none => exact ⟨fun ⟨_, _, hnone, _⟩ => (nomatch hnone), fun _ => rfl⟩
  | some sr =>
      obtain ⟨s, r⟩ := sr
      obtain ⟨hs, hsr⟩ := sendOn_eq_some hsend
      have hsn := Composite.sendsBelow_subset hs
      have hreached : (∃ s' r', some (s, r) = some (s', r') ∧
          s' ∈ Composite.processed returned 0 t.root.sendsBelow ∧ s'.Passes r') ↔
          s ∈ Composite.processed returned 0 t.root.sendsBelow ∧ s.Passes r := by
        refine ⟨?_, fun h => ⟨s, r, rfl, h⟩⟩
        rintro ⟨s', r', he, h⟩
        cases he
        exact h
      rw [hreached, Option.bind_some]
      cases hbranch : branchOf branches s.id with
      | none =>
          have hnot : s ∉ Composite.processed returned 0 t.root.sendsBelow := fun hmem =>
            branchOf_eq_none.mp hbranch (h.ids ▸ List.mem_map_of_mem hmem)
          exact ⟨fun hmem => absurd hmem.1 hnot, fun _ => rfl⟩
      | some b =>
          obtain ⟨s', hs', hid, hinjected⟩ := h.injected b (List.mem_of_find?_eq_some hbranch)
          have hfind : branches.find? (fun b => b.id == s.id) = some b := hbranch
          have hbid := List.find?_some hfind
          obtain rfl := hsame s' hs' s hsn (hid.trans (beq_iff_eq.mp hbid))
          rw [hsr] at hleaf
          rw [and_iff_right hs', ← goes_iff_passes (g := g) hs hleaf]
          exact hinjected.leafAt hleaf

/-- A string leaf with text is replaced if and only if it is reached. -/
theorem Branches.replaced_iff {rand : Nat → Nat → Nat → Nat} {returned : Nat → Bool}
    {branches : List Composite} {n : Nat} (h : Branches t g rand returned n branches)
    {p : List Nat} {id : Nat} {name text : Bytes}
    (hleaf : t.root.nodeAt p = some (.leaf .stringLeaf id name)) (htrim : trim name = some text)
    (hne : text ≠ []) :
    (attach branches t.root).Replaced p name ↔ t.root.Reached returned p := by
  obtain ⟨hreached, hkept⟩ := h.leafAt hleaf
  refine ⟨fun hreplaced => ?_, fun h => ?_⟩
  · by_contra hnot
    obtain ⟨_, _, _, _, hor⟩ := hreplaced
    rw [hkept hnot] at hor
    cases hor
  · obtain ⟨d, ⟨st, st', _, hd⟩, hat⟩ := hreached h
    rw [inject, injectLeaf, htrim] at hd
    split at hd
    · next heq => cases heq
    · next heq => exact absurd (Option.some.inj heq) hne
    · cases hd
      exact ⟨_, _, _, _, hat⟩

/-- The whole of automatic injection, by what happens to the sends. -/
theorem autoInject_eq (t : ParsedTree) (g : TSGenerator) (rand : Nat → Nat → Nat → Nat)
    (returned : Nat → Bool) (st : Injection) : autoInject rand g returned t.root st =
      (injectSends (searched t g).2 rand returned 0 t.root.sendsBelow st).map fun q =>
        (attach q.1 t.root, q.2) := by
  rw [← (searched_found t g).1]
  rfl

/-- Automatic injection ends if and only if no `Memorize` it comes to is short of its
value. -/
theorem injectSends_ends_iff (hquoted : t.root.Quoted) (rand : Nat → Nat → Nat → Nat)
    (returned : Nat → Bool) (st : Injection) :
    (injectSends (searched t g).2 rand returned 0 t.root.sendsBelow st).isSome = true ↔
      ∀ p d, t.root.nodeAt p = some d → t.root.Reached returned p → d.shortMemorize = false := by
  rw [isSome_injectSends fun s hs st => isSome_inject_send hquoted hs rand st]
  refine ⟨fun h p d hd ⟨s, r, hsend, hs, hpasses⟩ => ?_, fun h s hs r d hd hpasses => ?_⟩
  · rw [(sendOn_eq_some hsend).2] at hd
    exact h s hs r d hd hpasses
  · obtain ⟨q, hq⟩ := exists_sendOn (mem_of_mem_processed hs) r
    exact h q d ((sendOn_eq_some hq).2.trans hd) ⟨s, r, hq, hs, hpasses⟩

/-- Automatic injection ends with every string leaf replaced that is data of a send, if
and only if every such leaf is reached and no `Memorize` on the way is short of its
value. -/
theorem inject_covers_iff (t : ParsedTree) (hquoted : t.root.Quoted) (g : TSGenerator)
    (rand : Nat → Nat → Nat → Nat) (returned : Nat → Bool) (st : Injection) :
    (∃ root st', autoInject rand g returned t.root st = some (root, st') ∧
        ∀ p name, t.root.InScope p name → root.Replaced p name) ↔
      (∀ p d, t.root.nodeAt p = some d → t.root.Reached returned p → d.shortMemorize = false) ∧
        ∀ p name, t.root.InScope p name → t.root.Reached returned p := by
  have hleafAt : ∀ p name, t.root.InScope p name → ∃ id text,
      t.root.nodeAt p = some (.leaf .stringLeaf id name) ∧ trim name = some text ∧ text ≠ [] := by
    rintro p name ⟨q, r, s, id, text, rfl, hq, _, _, hleaf, htext⟩
    exact ⟨id, text, by rw [Composite.nodeAt_append, hq]; exact hleaf, htext⟩
  constructor
  · rintro ⟨root, st', hinject, hreplaced⟩
    rw [autoInject_eq] at hinject
    obtain ⟨⟨branches, st₁⟩, hsends, he⟩ := Option.map_eq_some_iff.mp hinject
    cases he
    refine ⟨(injectSends_ends_iff hquoted rand returned st).mp (Option.isSome_of_eq_some hsends),
      fun p name hscope => ?_⟩
    obtain ⟨id, text, hleaf, htrim, hne⟩ := hleafAt p name hscope
    exact ((injectSends_branches (Nat.le_refl _) hsends).replaced_iff hleaf htrim hne).mp
      (hreplaced p name hscope)
  · rintro ⟨hshort, hreached⟩
    obtain ⟨⟨branches, st'⟩, hsends⟩ := Option.isSome_iff_exists.mp
      ((injectSends_ends_iff hquoted rand returned st).mpr hshort)
    refine ⟨_, st', by rw [autoInject_eq, hsends]; rfl, fun p name hscope => ?_⟩
    obtain ⟨id, text, hleaf, htrim, hne⟩ := hleafAt p name hscope
    exact ((injectSends_branches (Nat.le_refl _) hsends).replaced_iff hleaf htrim hne).mpr
      (hreached p name hscope)

end

/-! ## A send at the root -/

/-- A send of one text. -/
def sendOfText (id : Nat) (text : Bytes) : Composite :=
  .node .composite id (ascii "s") [.leaf .commandComposite (id + 1) (ascii "<%UDP_send%>"),
    .leaf .stringLeaf (id + 2) (InjectorPerformer.addQuote text)]

/-- `r = s`, where `s` is a send. -/
def sendInSequence (text : Bytes) : ParsedTree where
  root := .node .composite 0 (ascii "r") [sendOfText 1 text]
  nodup := by
    change [0, 1, 2, 3].Nodup
    decide
  sons_ne_nil := by
    simp [sendOfText, Composite.nodes, Composite.nodesOf, Composite.sons, Composite.isLeaf]
  alternatives := nofun
  size := by
    change 4 < 2 ^ 63
    decide

/-- The send is the whole tree. -/
def sendAtRoot : ParsedTree where
  root := sendOfText 0 (ascii "a")
  nodup := by decide
  sons_ne_nil := by decide
  alternatives := nofun
  size := by decide

theorem inject_covers_iff_sequence :
    ∃ root st', autoInject (fun _ _ _ => 0) .exp (fun _ => true)
      (sendInSequence (ascii "a")).root { nextId := 4 } = some (root, st') ∧
      ∀ p name, (sendInSequence (ascii "a")).root.InScope p name → root.Replaced p name := by
  obtain ⟨t, ht⟩ : ∃ t, t = sendInSequence (ascii "a") := ⟨_, rfl⟩
  have hshort : ∀ d ∈ t.root.nodes, (!d.shortMemorize) = true := by
    rw [ht]
    exact List.all_eq_true.mp rfl
  have hquoted : t.root.Quoted := by
    rw [ht]
    exact List.all_eq_true.mp rfl
  rw [← ht]
  refine (inject_covers_iff t hquoted .exp (fun _ _ _ => 0) (fun _ => true)
    { nextId := 4 }).mpr ⟨fun p d hd _ => ?_, ?_⟩
  · exact Bool.not_eq_true' _ ▸ hshort d (Composite.mem_nodes_of_nodeAt hd)
  rintro p name ⟨q, r, s, id, text, rfl, hq, _, _, hleaf, _⟩
  have hat : t.root.nodeAt (q ++ r) = some (.leaf .stringLeaf id name) := by
    rw [Composite.nodeAt_append, hq]
    exact hleaf
  rw [ht] at hat ⊢
  have hreached : (sendInSequence (ascii "a")).root.Reached (fun _ => true) [0, 1] :=
    ⟨sendOfText 1 (ascii "a"), [1], rfl, List.mem_cons_self, by decide, _, rfl, .inl rfl, trivial⟩
  match q ++ r, hat with
  | [0, 1], _ => exact hreached
  | [], hat => cases hat
  | (k + 1) :: p, hat => cases hat
  | [0], hat => cases hat
  | [0, 0], hat => cases hat
  | 0 :: 0 :: k :: p, hat => cases hat
  | 0 :: 1 :: k :: p, hat => cases hat
  | 0 :: (k + 2) :: p, hat => cases hat

/-- The leaf of a send at the root is not replaced. -/
theorem root_send_kept : ¬ ∀ t : ParsedTree, t.root.Quoted → ∀ (g : TSGenerator)
    (rand : Nat → Nat → Nat → Nat) (returned : Nat → Bool) (st : Injection),
    ∃ root st', autoInject rand g returned t.root st = some (root, st') ∧
      ∀ p name, t.root.InScope p name → root.Replaced p name := by
  intro hall
  obtain ⟨root, st', hinject, hreplaced⟩ := hall sendAtRoot (List.all_eq_true.mp rfl) .exp
    (fun _ _ _ => 0) (fun _ => true) { nextId := 3 }
  have hkept : autoInject (fun _ _ _ => 0) .exp (fun _ => true) sendAtRoot.root
      { nextId := 3 } = some (sendAtRoot.root, { nextId := 3 }) := rfl
  rw [hkept] at hinject
  cases hinject
  obtain ⟨_, _, _, _, hor⟩ := hreplaced [1] (InjectorPerformer.addQuote (ascii "a"))
    ⟨[], [1], _, 2, ascii "a", rfl, rfl, rfl, ⟨by decide, _, rfl, trivial⟩, rfl, rfl, nofun⟩
  cases hor

end AnomalyInjector

end Stress

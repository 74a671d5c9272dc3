import Stress.Library.Text
import Mathlib.Data.List.Nodup

/-!
# Composites and the action factory

The tree the parser builds (`lib/composite`, `lib/leaf`, `lib/or-composite`,
`lib/repeat-composite`) and the strategies the factory gives to its nodes
(`lib/actions/action-factory`).  A node is identified by the id `TestControl`
drew for it, so two nodes of a tree have different ids.

The strategy of a `Composite` depends on its first son only: a command names
the action, anything else gives `ReturnAction`.
-/

namespace Stress

/-- The classes derived from `Leaf`. -/
inductive LeafKind where
  | stringLeaf
  | hexLeaf
  | decLeaf
  | binLeaf
  | commandComposite
deriving DecidableEq, Repr

/-- The classes with sons. -/
inductive NodeKind where
  | composite
  | orComposite
  | repeatComposite
deriving DecidableEq, Repr

/-- A node of the tree.  Only an inner node has sons. -/
inductive Composite where
  | leaf (kind : LeafKind) (id : Nat) (name : Bytes)
  | node (kind : NodeKind) (id : Nat) (name : Bytes) (sons : List Composite)

/-! ## Actions -/

/-- The four kinds of socket. -/
inductive Transport where
  | udp
  | tcp
  | raw
  | btrfcomm
deriving DecidableEq, Repr

/-- The commands of `include-actions.h` other than sends and reads. -/
inductive Command where
  | variableCommand
  | additionCommand
  | base64DecodeCommand
  | base64EncodeCommand
  | md5Command
  | maskCheckCommand
  | valueCheckCommand
  | uPauseCommand
  | lengthCommand
  | stringLengthCommand
  | memorizeCommand
  | repeatCommand
  | ceilDivideCommand
deriving DecidableEq, Repr

/-- The strategies a node can have. -/
inductive Action where
  | returnAction
  | repeatAction
  | injectAction (injectionId : UInt64)
  | sendAction (socket : Transport)
  | readAction (socket : Transport)
  | command (c : Command)
deriving DecidableEq, Repr

/-- `ActionFactory::commands`: the registered commands with a clone of each. -/
def commands : List (Bytes × Action) :=
  [(ascii "<%UDP_send%>", .sendAction .udp),
   (ascii "<%TCP_send%>", .sendAction .tcp),
   (ascii "<%RAW_send%>", .sendAction .raw),
   (ascii "<%BTrfcomm_send%>", .sendAction .btrfcomm),
   (ascii "<%UDP_read%>", .readAction .udp),
   (ascii "<%TCP_read%>", .readAction .tcp),
   (ascii "<%RAW_read%>", .readAction .raw),
   (ascii "<%BTrfcomm_read%>", .readAction .btrfcomm),
   (ascii "<%Variable%>", .command .variableCommand),
   (ascii "<%Sum%>", .command .additionCommand),
   (ascii "<%Base64Decode%>", .command .base64DecodeCommand),
   (ascii "<%Base64Encode%>", .command .base64EncodeCommand),
   (ascii "<%MD5%>", .command .md5Command),
   (ascii "<%MaskCheck%>", .command .maskCheckCommand),
   (ascii "<%ValueCheck%>", .command .valueCheckCommand),
   (ascii "<%UPause%>", .command .uPauseCommand),
   (ascii "<%Length%>", .command .lengthCommand),
   (ascii "<%StringLength%>", .command .stringLengthCommand),
   (ascii "<%Memorize%>", .command .memorizeCommand),
   (ascii "<%Repeat%>", .command .repeatCommand),
   (ascii "<%CeilDivide%>", .command .ceilDivideCommand)]

/-- `getActionFromFirstSon(CommandComposite*)`.  An unknown command gives
`ReturnAction`. -/
def commandAction (name : Bytes) : Action := (commands.lookup name).getD .returnAction

/-- `ActionFactory::getAction(Composite*)`. -/
def factoryAction : List Composite → Action
  | .leaf .commandComposite _ name :: _ => commandAction name
  | _ => .returnAction

/-- The strategy the factory gives to a node.  The id of an injector is drawn
from the generator, and `0` stands for it here. -/
def strategyOf : NodeKind → List Composite → Action
  | .composite, sons => factoryAction sons
  | .orComposite, _ => .injectAction 0
  | .repeatComposite, _ => .repeatAction

/-- The strategies of a `Composite`. -/
theorem factoryAction_cases (sons : List Composite) : factoryAction sons = .returnAction ∨
    (∃ socket, factoryAction sons = .sendAction socket) ∨
    (∃ socket, factoryAction sons = .readAction socket) ∨
    ∃ c, factoryAction sons = .command c := by
  have htable : ∀ p ∈ commands, (∃ socket, p.2 = .sendAction socket) ∨
      (∃ socket, p.2 = .readAction socket) ∨ ∃ c, p.2 = .command c := by
    intro p hp
    simp only [commands, List.mem_cons, List.not_mem_nil, or_false] at hp
    rcases hp with rfl | rfl | rfl | rfl | rfl | rfl | rfl | rfl | rfl | rfl | rfl | rfl | rfl |
      rfl | rfl | rfl | rfl | rfl | rfl | rfl | rfl <;> simp
  unfold factoryAction
  split
  · next id name _ =>
      rw [commandAction]
      cases h : commands.lookup name with
      | none => exact .inl rfl
      | some a =>
          obtain ⟨l₁, l₂, hl, _⟩ := List.lookup_eq_some_iff.mp h
          exact .inr (htable (name, a) (by rw [hl]; simp))
  · exact .inl rfl

theorem factoryAction_ne_injectAction (sons : List Composite) (n : UInt64) :
    factoryAction sons ≠ .injectAction n := by
  obtain h | ⟨_, h⟩ | ⟨_, h⟩ | ⟨_, h⟩ := factoryAction_cases sons <;> rw [h] <;> nofun

theorem factoryAction_ne_repeatAction (sons : List Composite) :
    factoryAction sons ≠ .repeatAction := by
  obtain h | ⟨_, h⟩ | ⟨_, h⟩ | ⟨_, h⟩ := factoryAction_cases sons <;> rw [h] <;> nofun

namespace Composite

def id : Composite → Nat
  | .leaf _ i _ => i
  | .node _ i _ _ => i

/-- `getName`. -/
def name : Composite → Bytes
  | .leaf _ _ n => n
  | .node _ _ n _ => n

/-- `getSons`. -/
def sons : Composite → List Composite
  | .leaf _ _ _ => []
  | .node _ _ _ cs => cs

def isOr : Composite → Bool
  | .node .orComposite _ _ _ => true
  | _ => false

/-- `isLeaf`. -/
def isLeaf : Composite → Bool
  | .leaf _ _ _ => true
  | .node _ _ _ _ => false

mutual

/-- Every node of a tree, from the root down and from left to right. -/
def nodes : Composite → List Composite
  | .leaf k i n => [.leaf k i n]
  | .node k i n cs => .node k i n cs :: nodesOf cs

def nodesOf : List Composite → List Composite
  | [] => []
  | c :: cs => nodes c ++ nodesOf cs

end

/-- The `OrComposite` nodes of a tree. -/
def orNodes (c : Composite) : List Composite := c.nodes.filter isOr

/-! ## Equations -/

theorem nodesOf_eq (cs : List Composite) : nodesOf cs = cs.flatMap nodes := by
  induction cs with
  | nil => simp [nodesOf]
  | cons c cs ih => simp [nodesOf, ih]

theorem nodes_eq (c : Composite) : c.nodes = c :: c.sons.flatMap nodes := by
  cases c with
  | leaf k i n => simp [nodes, sons]
  | node k i n cs => simp [nodes, nodesOf_eq, sons]

theorem mem_nodes_self (c : Composite) : c ∈ c.nodes := by rw [nodes_eq]; simp

/-- Induction along the sons. -/
theorem induction {P : Composite → Prop} (h : ∀ c, (∀ d ∈ c.sons, P d) → P c) (c : Composite) :
    P c := by
  refine @Composite.rec P (fun cs => ∀ d ∈ cs, P d) ?_ ?_ ?_ ?_ c
  · intro k i n
    exact h _ (fun d hd => by cases hd)
  · intro k i n cs ih
    exact h _ ih
  · intro d hd
    cases hd
  · intro d ds ihd ihds e he
    cases List.mem_cons.mp he with
    | inl heq => exact heq ▸ ihd
    | inr hm => exact ihds e hm

/-- The nodes below a node of a tree are nodes of the tree. -/
theorem nodes_trans {c d e : Composite} (hd : d ∈ c.nodes) (he : e ∈ d.nodes) : e ∈ c.nodes := by
  induction c using Composite.induction with
  | h c ih =>
      rw [nodes_eq] at hd ⊢
      cases List.mem_cons.mp hd with
      | inl heq =>
          subst heq
          rw [nodes_eq] at he
          exact he
      | inr hm =>
          obtain ⟨s, hs, hds⟩ := List.mem_flatMap.mp hm
          exact List.mem_cons_of_mem _ (List.mem_flatMap.mpr ⟨s, hs, ih s hs hds⟩)

theorem son_mem_nodes {c d : Composite} (hd : d ∈ c.sons) : d ∈ c.nodes := by
  rw [nodes_eq]
  exact List.mem_cons_of_mem _ (List.mem_flatMap.mpr ⟨d, hd, mem_nodes_self d⟩)

end Composite

/-- A tree as the parser leaves it.  Its nodes are distinct objects of a 64-bit
address space, an inner node has sons, since a reference to an undefined rule is
an error, and an alternation has at least two alternatives. -/
structure ParsedTree where
  root : Composite
  nodup : (root.nodes.map Composite.id).Nodup
  sons_ne_nil : ∀ c ∈ root.nodes, c.isLeaf = false → c.sons ≠ []
  alternatives : ∀ c ∈ root.orNodes, 2 ≤ c.sons.length
  size : root.nodes.length < 2 ^ 63

namespace ParsedTree

/-- An id belongs to one node. -/
theorem eq_of_id_eq (t : ParsedTree) {c d : Composite} (hc : c ∈ t.root.nodes)
    (hd : d ∈ t.root.nodes) (h : c.id = d.id) : c = d :=
  List.inj_on_of_nodup_map t.nodup hc hd h

/-- The id of an alternation belongs to no other kind of node. -/
theorem id_ne_of_orNode (t : ParsedTree) {d : Composite} (hd : d ∈ t.root.orNodes)
    {kind : NodeKind} {id : Nat} {name : Bytes} {sons : List Composite}
    (hc : .node kind id name sons ∈ t.root.nodes) (hkind : kind ≠ .orComposite) : d.id ≠ id := by
  intro hid
  obtain ⟨hd, hor⟩ := List.mem_filter.mp hd
  rw [t.eq_of_id_eq hd hc hid] at hor
  cases kind with
  | composite => cases hor
  | orComposite => exact hkind rfl
  | repeatComposite => cases hor

theorem orNodes_nodup (t : ParsedTree) : (t.root.orNodes.map Composite.id).Nodup :=
  t.nodup.sublist (List.filter_sublist.map _)

theorem orNodes_length_lt (t : ParsedTree) : t.root.orNodes.length < 2 ^ 63 :=
  lt_of_le_of_lt (List.length_filter_le _ _) t.size

end ParsedTree

end Stress

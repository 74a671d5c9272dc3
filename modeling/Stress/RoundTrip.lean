import Stress.InjectedGrammar
import Stress.References

/-!
# The file as a grammar

The file that `AnomalyInjector::write` puts a tree into is read by the parser as any other
grammar.  The tree that it builds from the file (`readBack`) is the one that was written, but
for two things: every inner node has its id in its name, and an injected alternation lies in a
node of its own.

The names are not sent, but a command may read the name of a node as a text, as `Variable` and
`Repeat` do, and a node around an alternation has its own text and number.  Where nobody asks
for these (`Tree.unread`), the two trees send the same for every selection of alternatives.
`file_round_trips_iff` puts this together with the condition for the file to be accepted.
-/

namespace Stress

open Relation

/-! ## Names that nobody reads -/

/-- Whether the state of a `Composite` with these sons has the name of the node as its
text. -/
def Tree.showsName : List Tree → Bool
  | .leaf .commandComposite name :: _ => (commandAction name).showsName
  | _ => true

mutual

/-- Where the tree is asked for the views `v`, no name of an inner node is read as a text,
and no alternation is asked for its text or its number. -/
def Tree.unread (v : Views) : Tree → Bool
  | .leaf _ _ => true
  | .node .composite _ sons =>
      (!showsName sons || !v.string) && unreadSons (Tree.reads v .composite sons) sons
  | .node .orComposite _ sons => v == {} && unreadSons (fun _ => {}) sons
  | .node .repeatComposite _ sons => unreadSons (fun _ => {}) sons

def Tree.unreadSons (vs : Nat → Views) : List Tree → Bool
  | [] => true
  | t :: ts => unread (vs 0) t && unreadSons (fun k => vs (k + 1)) ts

end

theorem Tree.unread_of_getElem? {vs : Nat → Views} {ts : List Tree}
    (h : unreadSons vs ts = true) {k : Nat} {t : Tree} (ht : ts[k]? = some t) :
    unread (vs k) t = true := by
  induction ts generalizing vs k with
  | nil => cases ht
  | cons u ts ih =>
      rw [unreadSons, Bool.and_eq_true] at h
      cases k with
      | zero =>
          cases ht
          exact h.1
      | succ k => exact ih h.2 ht

/-- The strategy of a node is read off its tree. -/
theorem factoryAction_shapes (v : Views) (cs : List Composite) :
    (factoryAction cs).reads = Tree.reads v .composite (cs.map Composite.shape) ∧
      (factoryAction cs).showsName = Tree.showsName (cs.map Composite.shape) := by
  cases cs with
  | nil => exact ⟨rfl, rfl⟩
  | cons c cs =>
      cases c with
      | leaf kind id name => cases kind <;> exact ⟨rfl, rfl⟩
      | node kind id name sons => exact ⟨rfl, rfl⟩

/-! ## Alternations with a choice -/

/-- Every alternation has a choice. -/
inductive Tree.Branching : Tree → Prop where
  | leaf (kind : LeafKind) (name : Bytes) : Branching (.leaf kind name)
  | node {kind : NodeKind} {name : Bytes} {sons : List Tree}
      (hor : kind = .orComposite → 1 < sons.length) (hsons : ∀ s ∈ sons, Branching s) :
      Branching (.node kind name sons)

theorem Tree.branching_node {kind : NodeKind} {name : Bytes} {ts : List Tree} :
    (Tree.node kind name ts).Branching ↔
      (kind = .orComposite → 1 < ts.length) ∧ ∀ t ∈ ts, t.Branching := by
  constructor
  · intro h
    cases h with
    | node hor hsons => exact ⟨hor, hsons⟩
  · exact fun h => .node h.1 h.2

namespace AnomalyInjector

variable {c d : Composite} {deleted : List Nat} {text : Bytes}

/-! ## The tree of the file -/

mutual

/-- The tree that the parser builds from the file.  A node has the name of its line, and an
alternation lies in a node of its own. -/
def readBack : Composite → Tree
  | .leaf kind _ name => .leaf kind name
  | .node kind id name sons =>
      .node .composite (lhs (.node kind id name sons))
        (if (Composite.node kind id name sons).isOr ∧ 1 < sons.length then
          [.node .orComposite (ascii "/") (readBackSons sons)]
        else readBackSons sons)

def readBackSons : List Composite → List Tree
  | [] => []
  | c :: cs => readBack c :: readBackSons cs

end

theorem readBackSons_eq (cs : List Composite) : readBackSons cs = cs.map readBack := by
  induction cs with
  | nil => rw [readBackSons, List.map_nil]
  | cons c cs ih => rw [readBackSons, ih, List.map_cons]

/-- The rule of a node is expanded to the tree that is read back. -/
theorem Legible.expands (h : Legible c) (hd : d ∈ c.nodes) :
    Expands (fileValues (inner c)) (reference d) (readBack d) := by
  induction d using Composite.induction with
  | h d ih =>
      cases d with
      | leaf kind id name =>
          rw [reference, readBack]
          exact .leaf kind name
      | node kind id name sons =>
          have hinner : Composite.node kind id name sons ∈ inner c := mem_inner.mpr ⟨hd, rfl⟩
          have hsons : List.Forall₂ (Expands (fileValues (inner c))) (sons.map reference)
              (sons.map readBack) := by
            rw [List.forall₂_map_left_iff, List.forall₂_map_right_iff, List.forall₂_same]
            exact fun s hs => ih s hs (Composite.nodes_trans hd (Composite.son_mem_nodes hs))
          rw [reference, readBack, readBackSons_eq]
          refine .reference (lookup_fileValues (nodup_inner h.ids) hinner) ?_
          rw [Tree.sons, body, Composite.sons]
          split
          · have hne : sons.map reference ≠ [] := by
              rw [ne_eq, List.map_eq_nil_iff]
              exact h.sons _ hinner
            exact .cons (.inner hne hsons) .nil
          · exact hsons

/-- A name with an id behind it is a name of a rule, and no number. -/
theorem sameName_lhs {kind : NodeKind} {id : Nat} {name : Bytes} {sons : List Composite}
    {v : Views} (hname : IsName name) (hv : v.string = false) :
    SameName v name (lhs (.node kind id name sons)) where
  string h := by
    rw [hv] at h
    cases h
  integer _ := by
    have hlhs : IsName (lhs (.node kind id name sons)) := by
      cases name with
      | nil => cases hname
      | cons a s => exact hname
    rw [nameValue_of_isName hname, nameValue_of_isName hlhs]

section Sons

variable {sons cs cs' : List Composite} {vs : Nat → Views}

/-- The sons of a node, and the sons that are read back. -/
theorem standsFor_sons (hcs : cs.map Composite.shape = sons.map Composite.shape)
    (hcs' : cs'.map Composite.shape = sons.map readBack)
    (h : ∀ (k : Nat) s, sons[k]? = some s → ∀ x x', x.shape = s.shape →
      x'.shape = readBack s → StandsFor (vs k) x x') :
    cs.length = cs'.length ∧ ∀ (k : Nat) x x', cs[k]? = some x → cs'[k]? = some x' →
      StandsFor (vs k) x x' := by
  have hlen : cs.length = sons.length := by
    simpa using congrArg List.length hcs
  have hlen' : cs'.length = sons.length := by
    simpa using congrArg List.length hcs'
  refine ⟨hlen.trans hlen'.symm, fun k x x' hx hx' => ?_⟩
  have hshape : (cs.map Composite.shape)[k]? = (sons.map Composite.shape)[k]? := by rw [hcs]
  have hread : (cs'.map Composite.shape)[k]? = (sons.map readBack)[k]? := by rw [hcs']
  rw [List.getElem?_map, List.getElem?_map, hx] at hshape
  obtain ⟨s, hs, hshape⟩ := Option.map_eq_some_iff.mp hshape.symm
  rw [List.getElem?_map, List.getElem?_map, hx', hs] at hread
  exact h k s hs x x' hshape.symm (Option.some.inj hread)

end Sons

/-- What is read back can stand in the place of the tree that was written. -/
theorem Legible.standsFor (h : Legible c) {v : Views} (hd : d ∈ c.nodes)
    (hbranch : d.shape.Branching) (hunread : d.shape.unread v = true) {x x' : Composite}
    (hx : x.shape = d.shape) (hx' : x'.shape = readBack d) : StandsFor v x x' := by
  induction d using Composite.induction generalizing v x x' with
  | h d ih =>
      cases d with
      | leaf kind id name =>
          rw [readBack] at hx'
          obtain ⟨i, rfl⟩ := Composite.shape_eq_leaf hx
          obtain ⟨i', rfl⟩ := Composite.shape_eq_leaf hx'
          exact .leaf kind i i' name
      | node kind id name sons =>
          have hinner : Composite.node kind id name sons ∈ inner c := mem_inner.mpr ⟨hd, rfl⟩
          have hname : IsName name := h.names _ hinner
          have hkind := kind_of_printable (h.printable _ hinner) hname
          rw [Composite.shape, Composite.shapes_eq] at hx hbranch hunread
          rw [readBack, readBackSons_eq] at hx'
          obtain ⟨i, cs, rfl, hcs⟩ := Composite.shape_eq_node hx
          obtain ⟨i', cs', rfl, hcs'⟩ := Composite.shape_eq_node hx'
          obtain ⟨hor, hbranches⟩ := Tree.branching_node.mp hbranch
          rw [List.length_map] at hor
          have hson : ∀ vs : Nat → Views, Tree.unreadSons vs (sons.map Composite.shape) = true →
              ∀ (k : Nat) s, sons[k]? = some s → ∀ x x', x.shape = s.shape →
                x'.shape = readBack s → StandsFor (vs k) x x' := by
            intro vs hvs k s hs x x' hx hx'
            have hmem := List.mem_of_getElem? hs
            have hview : s.shape.unread (vs k) = true :=
              Tree.unread_of_getElem? hvs (by rw [List.getElem?_map, hs]; rfl)
            exact ih s hmem (Composite.nodes_trans hd (Composite.son_mem_nodes hmem))
              (hbranches _ (List.mem_map_of_mem hmem)) hview hx hx'
          obtain rfl | rfl := hkind
          · rw [if_neg fun hc => Bool.noConfusion hc.1] at hcs'
            rw [← hcs, Tree.unread, ← (factoryAction_shapes v cs).1,
              ← (factoryAction_shapes v cs).2, Bool.and_eq_true, Bool.or_eq_true,
              Bool.not_eq_true', Bool.not_eq_true', hcs] at hunread
            obtain ⟨hlen, hstand⟩ := standsFor_sons hcs hcs' (hson _ hunread.2)
            refine .composite (fun hshows => sameName_lhs hname ?_) hlen hstand
            exact hunread.1.resolve_left (by rw [hshows]; exact Bool.noConfusion)
          · rw [if_pos ⟨rfl, hor rfl⟩] at hcs'
            obtain ⟨y, rfl, hy⟩ := List.map_eq_singleton_iff.mp hcs'
            obtain ⟨j, ds, rfl, hds⟩ := Composite.shape_eq_node hy
            rw [Tree.unread, Bool.and_eq_true, beq_iff_eq] at hunread
            obtain ⟨rfl, hunread⟩ := hunread
            obtain ⟨hlen, hstand⟩ := standsFor_sons hcs hds (hson (fun _ => {}) hunread)
            exact .wrapped hlen hstand

/-! ## The round trip -/

/-- The tree is written to a file, the parser accepts the file without an error, and the tree
that it builds sends what the written tree does. -/
def RoundTrips (deleted : List Nat) (c : Composite) : Prop :=
  ∃ text, write deleted c = some text ∧ ∃ p rules u, ABNFParser.Parse text (.done p rules) ∧
    p.parsingResult = true ∧ p.NoErrors ∧ ExpandsTo rules u ∧ SameSends c.shape u

variable {t : ParsedTree}

/-- The parser builds one tree from a list of rules. -/
theorem ExpandsTo.unique {rules : List Rule} {u u' : Tree} (h : ExpandsTo rules u)
    (h' : ExpandsTo rules u') : u = u' := by
  obtain ⟨r, rest, values, fuel, b, rfl, hvalues, hexpand, rfl⟩ := h
  obtain ⟨r', rest', values', fuel', b', heq, hvalues', hexpand', rfl⟩ := h'
  cases heq
  rw [hvalues] at hvalues'
  cases hvalues'
  rw [expand_unique hexpand hexpand']

/-- The inner nodes of a tree that is read back from its file are named as rules. -/
theorem RoundTrips.named (h : RoundTrips deleted c) (hprint : c.shape.Printable) :
    ∀ d ∈ inner c, IsName d.name := by
  obtain ⟨text, hwrite, p, rules, _, hparse, hresult, hno, _⟩ := h
  intro d hd
  by_contra hname
  exact not_accepted hprint hd hname hwrite ⟨p, rules, hparse, hresult, hno⟩

/-- The tree of `r = <%UDP_send%> t`, `t = <%Repeat%> n %d2` and `n = "x"`. -/
def repeatedName : Composite :=
  .node .composite 0 (ascii "r")
    [.leaf .commandComposite 1 (ascii "<%UDP_send%>"),
     .node .composite 2 (ascii "t")
      [.leaf .commandComposite 3 (ascii "<%Repeat%>"),
       .node .composite 4 (ascii "n") [.leaf .stringLeaf 5 (ascii "\\\"x\\\"")],
       .leaf .decLeaf 6 (ascii "%d2")]]

-- The name of `n` is read as a text, and in the file it has the id of the node behind it.
example : runSends ⟨id, 0⟩ (fun _ => 0) repeatedName {} = some [ascii "nn"] ∧
    runSends ⟨id, 0⟩ (fun _ => 0) (makeNode (readBack repeatedName) 0).1 {} =
      some [ascii "n-4n-4"] := by decide +kernel

end AnomalyInjector

end Stress

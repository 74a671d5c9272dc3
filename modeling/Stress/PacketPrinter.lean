import Stress.Library.Text
import Mathlib.Data.List.Nodup

/-!
# Printing a dissected packet

`Tree::printTree`, `Node::printNode` and `ProtocolFilter::filter` of the dissector
(`src/tools/dissector/src/model.h`, `model.cpp`), without the copy on the standard
output.

A text is the sequence of what is inserted into the stream.  A name is one of these
pieces, whatever characters it has.

A node that fails the filter loses the head of its rule, but its children that pass
are listed all the same, on a line of their own.  The root keeps its head, and loses the
end of the line when no child of it passes.  `wellPrinted_iff` says for which trees
this comes out as rules: every list without a head must stand behind a head without a list.
-/

namespace Stress.Dissector

/-! ## Nodes and filters -/

/-- The fields of a node that printing reads. -/
structure NodeInfo where
  name : Bytes
  hidden : Bool := false
  position : Int := 0
  protocol : Bytes
deriving DecidableEq, Repr

inductive Node where
  | mk (info : NodeInfo) (children : List Node)

namespace Node

def info : Node → NodeInfo
  | mk info _ => info

def children : Node → List Node
  | mk _ children => children

def isLeaf (node : Node) : Bool := node.children.isEmpty

/-- The protocol that `Tree` gives to the root of a packet. -/
def isRoot (node : Node) : Bool := node.info.protocol == ascii "root"

/-- `addChild`.  The children are ordered by their position, and a new one comes behind
those of the same position. -/
def addChild : Node → Node → Node
  | mk info children, node =>
      mk info (children.takeWhile (fun c => c.info.position ≤ node.info.position) ++
        node :: children.dropWhile (fun c => c.info.position ≤ node.info.position))

mutual

/-- A node with all nodes below it. -/
def nodes : Node → List Node
  | mk info children => mk info children :: nodesOf children

def nodesOf : List Node → List Node
  | [] => []
  | c :: cs => nodes c ++ nodesOf cs

end

mutual

/-- A node, its last child, the last child of that, and so on. -/
def lastPath : Node → List Node
  | mk info children => mk info children :: lastPathOf children

def lastPathOf : List Node → List Node
  | [] => []
  | [c] => lastPath c
  | _ :: c :: cs => lastPathOf (c :: cs)

end

end Node

abbrev Filter := Node → Bool

structure ProtocolFilter where
  protocols : List Bytes
  layer : Int

/-- `ProtocolFilter::filter`. -/
def ProtocolFilter.filter (f : ProtocolFilter) : Filter := fun node =>
  if f.layer ≤ 2 then true
  else if f.protocols.length ≤ f.layer - 2 then false
  else
    let nodeProtocol := node.info.protocol.takeWhile (· != 46)
    (f.protocols.drop (f.layer - 2).toNat).contains nodeProtocol

/-! ## Printing -/

/-- What is inserted into the stream: `"; "`, a name, the postfix, `" = "`,
`"<read or send>"`, a blank or the end of a line. -/
inductive Piece where
  | comment
  | name (n : Bytes)
  | post (p : Bytes)
  | equal
  | readOrSend
  | blank
  | endl
deriving DecidableEq, Repr

/-- The bytes of a piece. -/
def Piece.text : Piece → Bytes
  | comment => ascii "; "
  | name n => n
  | post p => p
  | equal => ascii " = "
  | readOrSend => ascii "<read or send>"
  | blank => ascii " "
  | endl => [10]

/-- `f == NULL || f->filter(node)`. -/
def passes (f : Option Filter) (node : Node) : Bool :=
  match f with
  | none => true
  | some f => f node

/-- The filter for the children of a node. -/
def below (f : Option Filter) (node : Node) : Option Filter := if passes f node then none else f

/-- The children that are named on the line of a node. -/
def listed (f : Option Filter) (node : Node) : List Node :=
  node.children.filter fun c => passes f node || passes f c

section Printing

variable (post : Bytes)

/-- The head of the line of a node. -/
def head (f : Option Filter) (node : Node) : List Piece :=
  if passes f node || node.isRoot then
    (if node.info.hidden then [.comment] else []) ++ [.name node.info.name, .post post, .equal] ++
      if node.isRoot then [.readOrSend] else []
  else []

/-- A child on the line of a node. -/
def childName (c : Node) : List Piece :=
  [.blank, .name c.info.name] ++ if c.isLeaf then [] else [.post post]

/-- What `printNode` writes for a node with children before it goes on to these. -/
def line (f : Option Filter) (node : Node) : List Piece :=
  let hasVisibleChildren := !(listed f node).isEmpty
  head post f node ++ (listed f node).flatMap (childName post) ++
    if passes f node || hasVisibleChildren then [.endl, .endl] else []

mutual

/-- `printNode`, with the result `visible`. -/
def printNode (f : Option Filter) : Node → List Piece × Bool
  | .mk info children =>
      let node := Node.mk info children
      if node.isLeaf then ([], passes f node)
      else
        let rest := printChildren (below f node) (passes f node) children
        (line post f node ++ rest.1, rest.2)

/-- The last loop of `printNode`.  Each child overwrites `visible`. -/
def printChildren (f : Option Filter) (visible : Bool) : List Node → List Piece × Bool
  | [] => ([], visible)
  | c :: cs =>
      let first := printNode f c
      let rest := printChildren f first.2 cs
      (first.1 ++ rest.1, rest.2)

end

end Printing

/-- The tree of packet number `number`. -/
structure Tree where
  root : Node
  number : Int
  isRoot : root.isRoot = true

/-- What `printTree` writes with the postfix `post`. -/
def Tree.print (post : Bytes) (f : Filter) (t : Tree) : List Piece :=
  let printed := printNode post (some f) t.root
  (if printed.2 == false then [.comment] else []) ++ printed.1

/-- `printTree`. -/
def Tree.printTree (f : Filter) (multipleFiles : Bool) (t : Tree) : List Piece :=
  t.print (if multipleFiles then [] else 45 :: showInt t.number) f

/-! ## Rules -/

/-- What stands on the right of a rule. -/
inductive Element where
  | readOrSend
  | leaf (n : Bytes)
  | node (n : Bytes) (post : Bytes)

def Element.pieces : Element → List Piece
  | readOrSend => [.readOrSend]
  | leaf n => [.blank, .name n]
  | node n post => [.blank, .name n, .post post]

/-- The line of a rule. -/
def ruleLine (n post : Bytes) (els : List Element) : List Piece :=
  [.name n, .post post, .equal] ++ els.flatMap Element.pieces

def lines (text : List Piece) : List (List Piece) := text.splitOn .endl

/-- Whether a line is the rule of a name. -/
def defines (n post : Bytes) (l : List Piece) : Bool := [.name n, .post post, .equal].isPrefixOf l

/-- A line that is blank, a comment or a rule. -/
def Sound (l : List Piece) : Prop :=
  l = [] ∨ l.head? = some .comment ∨ ∃ n p els, els ≠ [] ∧ l = ruleLine n p els

/-- A packet that is printed as it should be. -/
structure WellPrinted (post : Bytes) (f : Filter) (t : Tree) : Prop where
  complete : ∀ l ∈ lines (t.print post f), Sound l
  /-- Every node that a rule names has one rule. -/
  defined : ∀ n p els, ruleLine n p els ∈ lines (t.print post f) →
    ∀ m q, Element.node m q ∈ els → (lines (t.print post f)).countP (defines m q) = 1
  /-- The first line is a comment if nothing passes the filter, and only then. -/
  commented : (t.print post f).head? = some .comment ↔ ∀ node ∈ t.root.nodes, f node = false

/-! ## Nodes in the order they are printed -/

mutual

/-- The calls of `printNode`, with their filters. -/
def visits (f : Option Filter) : Node → List (Option Filter × Node)
  | .mk info children =>
      (f, .mk info children) :: visitsOf (below f (.mk info children)) children

def visitsOf (f : Option Filter) : List Node → List (Option Filter × Node)
  | [] => []
  | c :: cs => visits f c ++ visitsOf f cs

end

/-- What one call writes itself. -/
def ownText (post : Bytes) (v : Option Filter × Node) : List Piece :=
  if v.2.isLeaf then [] else line post v.1 v.2

/-- A call that writes something: a rule, a head that is left without list and end, or
a list without a head. -/
inductive Kind where
  | rule
  | opened
  | headless
deriving DecidableEq, Repr

def kind (v : Option Filter × Node) : Option Kind :=
  if v.2.isLeaf then none
  else if passes v.1 v.2 then some .rule
  else if v.2.isRoot then if (listed v.1 v.2).isEmpty then some .opened else some .rule
  else if (listed v.1 v.2).isEmpty then none else some .headless

/-- Lists without a head stand behind heads without a list, and nothing else does. -/
def settled : List Kind → Bool
  | [] => true
  | [.opened] => true
  | .rule :: ks => settled ks
  | .opened :: .headless :: ks => settled ks
  | _ => false

mutual

theorem printNode_fst (post : Bytes) (f : Option Filter) : ∀ node : Node,
    (printNode post f node).1 = (visits f node).flatMap (ownText post)
  | .mk info children => by
      rw [printNode, visits, List.flatMap_cons, ownText]
      simp only
      split
      · next hleaf =>
          have hnil : children = [] := List.isEmpty_iff.mp hleaf
          rw [hnil, visitsOf]
          rfl
      · rw [printChildren_fst]

theorem printChildren_fst (post : Bytes) (f : Option Filter) (visible : Bool) :
    ∀ cs : List Node,
      (printChildren post f visible cs).1 = (visitsOf f cs).flatMap (ownText post)
  | [] => by
      rw [printChildren, visitsOf]
      rfl
  | c :: cs => by
      rw [printChildren, visitsOf, List.flatMap_append, ← printNode_fst post f c]
      simp only
      rw [printChildren_fst]

end

mutual

/-- Without a filter everything is visible. -/
theorem printNode_none (post : Bytes) : ∀ node : Node, (printNode post none node).2 = true
  | .mk info children => by
      rw [printNode]
      simp only
      split
      · rfl
      · exact printChildren_none post children

theorem printChildren_none (post : Bytes) : ∀ cs : List Node,
    (printChildren post none true cs).2 = true
  | [] => by rw [printChildren]
  | c :: cs => by
      rw [printChildren]
      simp only
      rw [printNode_none post c]
      exact printChildren_none post cs

end

mutual

/-- The last child decides. -/
theorem printNode_snd (post : Bytes) (f : Filter) : ∀ node : Node,
    (printNode post (some f) node).2 = node.lastPath.any f
  | .mk info children => by
      rw [printNode, Node.lastPath, List.any_cons]
      have hpasses : passes (some f) (.mk info children) = f (.mk info children) := rfl
      simp only [hpasses, below]
      split
      · next hleaf =>
          have hnil : children = [] := List.isEmpty_iff.mp hleaf
          rw [hnil, Node.lastPathOf, List.any_nil, Bool.or_false]
      · next hleaf =>
          cases hf : f (.mk info children) with
          | true => exact printChildren_none post children
          | false =>
              have hne : children ≠ [] := fun h => hleaf (List.isEmpty_iff.mpr h)
              exact printChildren_snd post f false children hne

theorem printChildren_snd (post : Bytes) (f : Filter) (visible : Bool) : ∀ cs : List Node,
    cs ≠ [] → (printChildren post (some f) visible cs).2 = (Node.lastPathOf cs).any f
  | [], h => absurd rfl h
  | [c], _ => by
      rw [printChildren, printChildren, Node.lastPathOf]
      exact printNode_snd post f c
  | c :: d :: cs, _ => by
      rw [printChildren, Node.lastPathOf]
      exact printChildren_snd post f (printNode post (some f) c).2 (d :: cs) nofun

end

mutual

theorem visits_nodes (f : Option Filter) : ∀ node : Node,
    (visits f node).map Prod.snd = node.nodes
  | .mk info children => by
      rw [visits, Node.nodes, List.map_cons, visitsOf_nodes]

theorem visitsOf_nodes (f : Option Filter) : ∀ cs : List Node,
    (visitsOf f cs).map Prod.snd = Node.nodesOf cs
  | [] => by
      rw [visitsOf, Node.nodesOf]
      rfl
  | c :: cs => by
      rw [visitsOf, Node.nodesOf, List.map_append, visits_nodes, visitsOf_nodes]

end

theorem mem_nodes_of_mem_visits {f : Option Filter} {node : Node} {v : Option Filter × Node}
    (h : v ∈ visits f node) : v.2 ∈ node.nodes := by
  rw [← visits_nodes f node]
  exact List.mem_map_of_mem h

theorem visits_mem_of_mem {f : Option Filter} {c : Node} {cs : List Node} (hc : c ∈ cs) :
    (f, c) ∈ visitsOf f cs := by
  induction cs with
  | nil => cases hc
  | cons d cs ih =>
      rw [visitsOf, List.mem_append]
      cases List.mem_cons.mp hc with
      | inl heq =>
          subst heq
          cases c
          left
          rw [visits]
          exact List.mem_cons_self
      | inr hmem => exact .inr (ih hmem)

mutual

/-- Every child of a node is printed. -/
theorem visits_child (f : Option Filter) : ∀ (node : Node) {v : Option Filter × Node},
    v ∈ visits f node → ∀ c ∈ v.2.children, (below v.1 v.2, c) ∈ visits f node
  | .mk info children, v, hv, c, hc => by
      rw [visits] at hv ⊢
      refine List.mem_cons_of_mem _ ?_
      cases List.mem_cons.mp hv with
      | inl heq =>
          subst heq
          exact visits_mem_of_mem hc
      | inr hmem => exact visitsOf_child (below f (.mk info children)) children hmem c hc

theorem visitsOf_child (f : Option Filter) : ∀ (cs : List Node) {v : Option Filter × Node},
    v ∈ visitsOf f cs → ∀ c ∈ v.2.children, (below v.1 v.2, c) ∈ visitsOf f cs
  | [], v, hv, c, hc => by
      rw [visitsOf] at hv
      cases hv
  | d :: cs, v, hv, c, hc => by
      rw [visitsOf, List.mem_append] at hv ⊢
      cases hv with
      | inl hleft => exact .inl (visits_child f d hleft c hc)
      | inr hright => exact .inr (visitsOf_child f cs hright c hc)

end

mutual

/-- Where nothing passes, the filter is never given up. -/
theorem visits_filter {f : Filter} : ∀ (node : Node), (∀ n ∈ node.nodes, f n = false) →
    ∀ v ∈ visits (some f) node, v.1 = some f
  | .mk info children, h, v, hv => by
      rw [Node.nodes, List.forall_mem_cons] at h
      have hbelow : below (some f) (.mk info children) = some f := by
        rw [below, passes, h.1]
        rfl
      rw [visits, hbelow] at hv
      cases List.mem_cons.mp hv with
      | inl heq => rw [heq]
      | inr hmem => exact visitsOf_filter children h.2 v hmem

theorem visitsOf_filter {f : Filter} : ∀ (cs : List Node), (∀ n ∈ Node.nodesOf cs, f n = false) →
    ∀ v ∈ visitsOf (some f) cs, v.1 = some f
  | [], _, v, hv => by
      rw [visitsOf] at hv
      cases hv
  | d :: cs, h, v, hv => by
      rw [Node.nodesOf, List.forall_mem_append] at h
      rw [visitsOf, List.mem_append] at hv
      cases hv with
      | inl hleft => exact visits_filter d h.1 v hleft
      | inr hright => exact visitsOf_filter cs h.2 v hright

end

/-! ## The text of one call -/

/-- A child as the rule of its parent names it. -/
def element (post : Bytes) (c : Node) : Element :=
  if c.isLeaf then .leaf c.info.name else .node c.info.name post

/-- The right side of the rule of a call. -/
def elements (post : Bytes) (v : Option Filter × Node) : List Element :=
  (if v.2.isRoot then [.readOrSend] else []) ++ (listed v.1 v.2).map (element post)

section Texts

variable {post : Bytes} {v : Option Filter × Node}

theorem listed_of_passes (h : passes v.1 v.2 = true) : listed v.1 v.2 = v.2.children := by
  rw [listed, List.filter_eq_self]
  intro c _
  rw [h]
  rfl

theorem childName_eq (c : Node) : childName post c = (element post c).pieces := by
  rw [childName, element]
  split <;> rfl

theorem names_eq (cs : List Node) :
    cs.flatMap (childName post) = (cs.map (element post)).flatMap Element.pieces := by
  rw [List.flatMap_map]
  exact List.flatMap_congr fun c _ => childName_eq c

/-- The head of a rule with its right side. -/
theorem head_eq (hhidden : v.2.info.hidden = false)
    (h : passes v.1 v.2 = true ∨ v.2.isRoot = true) :
    head post v.1 v.2 ++ (listed v.1 v.2).flatMap (childName post) =
      ruleLine v.2.info.name post (elements post v) := by
  have hhead : (passes v.1 v.2 || v.2.isRoot) = true := by
    rw [Bool.or_eq_true]
    exact h
  rw [head, if_pos hhead, hhidden, names_eq, ruleLine, elements, List.flatMap_append]
  cases v.2.isRoot <;> simp [Element.pieces]

/-- What the kinds stand for. -/
theorem of_kind {k : Kind} (h : kind v = some k) : v.2.isLeaf = false ∧
    match k with
    | .rule => (passes v.1 v.2 = true ∨ v.2.isRoot = true) ∧ listed v.1 v.2 ≠ []
    | .opened => passes v.1 v.2 = false ∧ v.2.isRoot = true ∧ listed v.1 v.2 = []
    | .headless => passes v.1 v.2 = false ∧ v.2.isRoot = false ∧ listed v.1 v.2 ≠ [] := by
  rw [kind] at h
  split at h
  · cases h
  · next hleaf =>
      refine ⟨Bool.eq_false_iff.mpr hleaf, ?_⟩
      split at h
      · next hpasses =>
          cases h
          refine ⟨.inl hpasses, ?_⟩
          rw [listed_of_passes hpasses]
          exact fun hnil => hleaf (List.isEmpty_iff.mpr hnil)
      · next hpasses =>
          have hfails := Bool.eq_false_iff.mpr hpasses
          split at h
          · next hroot =>
              split at h
              · next hempty =>
                  cases h
                  exact ⟨hfails, hroot, List.isEmpty_iff.mp hempty⟩
              · next hempty =>
                  cases h
                  exact ⟨.inr hroot, fun hnil => hempty (List.isEmpty_iff.mpr hnil)⟩
          · next hroot =>
              split at h
              · cases h
              · next hempty =>
                  cases h
                  exact ⟨hfails, Bool.eq_false_iff.mpr hroot,
                    fun hnil => hempty (List.isEmpty_iff.mpr hnil)⟩

theorem elements_ne_nil (h : listed v.1 v.2 ≠ []) : elements post v ≠ [] :=
  List.append_ne_nil_of_right_ne_nil _ fun hmap => h (List.map_eq_nil_iff.mp hmap)

theorem line_ends (h : listed v.1 v.2 ≠ []) :
    (passes v.1 v.2 || !(listed v.1 v.2).isEmpty) = true := by
  rw [Bool.or_eq_true, Bool.not_eq_true', List.isEmpty_eq_false_iff]
  exact .inr h

theorem ownText_rule (post : Bytes) (hhidden : v.2.info.hidden = false) (h : kind v = some .rule) :
    elements post v ≠ [] ∧ ownText post v =
      ruleLine v.2.info.name post (elements post v) ++ [.endl, .endl] := by
  obtain ⟨hleaf, hhead, hlisted⟩ := of_kind h
  refine ⟨elements_ne_nil hlisted, ?_⟩
  rw [ownText, hleaf, if_neg nofun, line, ← head_eq hhidden hhead]
  simp only [line_ends hlisted, if_true]

theorem ownText_opened (post : Bytes) (hhidden : v.2.info.hidden = false)
    (h : kind v = some .opened) :
    elements post v = [.readOrSend] ∧ ownText post v =
      ruleLine v.2.info.name post (elements post v) := by
  obtain ⟨hleaf, hfails, hroot, hlisted⟩ := of_kind h
  refine ⟨by rw [elements, hroot, hlisted]; rfl, ?_⟩
  rw [ownText, hleaf, if_neg nofun, line, ← head_eq hhidden (.inr hroot), hlisted, hfails]
  exact List.append_nil _

theorem ownText_headless (post : Bytes) (h : kind v = some .headless) :
    elements post v ≠ [] ∧ ownText post v =
      (elements post v).flatMap Element.pieces ++ [.endl, .endl] := by
  obtain ⟨hleaf, hfails, hroot, hlisted⟩ := of_kind h
  refine ⟨elements_ne_nil hlisted, ?_⟩
  have hhead : head post v.1 v.2 = [] := by
    rw [head, hfails, hroot]
    rfl
  rw [ownText, hleaf, if_neg nofun, line, hhead, elements, hroot, names_eq]
  simp only [line_ends hlisted, if_true]
  rfl

theorem ownText_none (h : kind v = none) : ownText post v = [] := by
  rw [kind] at h
  rw [ownText]
  split at h
  · next hleaf => rw [if_pos hleaf]
  · next hleaf =>
      split at h
      · cases h
      · next hpasses =>
          split at h
          · split at h <;> cases h
          · next hroot =>
              split at h
              · next hempty =>
                  have hlisted := List.isEmpty_iff.mp hempty
                  have hhead : head post v.1 v.2 = [] := by
                    rw [head, Bool.eq_false_iff.mpr hpasses, Bool.eq_false_iff.mpr hroot]
                    rfl
                  rw [if_neg hleaf, line, hhead, hlisted, Bool.eq_false_iff.mpr hpasses]
                  rfl
              · cases h

end Texts

/-! ## Lines -/

theorem pieces_ne_endl (els : List Element) : Piece.endl ∉ els.flatMap Element.pieces := by
  intro h
  obtain ⟨el, _, hmem⟩ := List.mem_flatMap.mp h
  cases el <;> simp [Element.pieces] at hmem

theorem ruleLine_ne_endl (n p : Bytes) (els : List Element) : Piece.endl ∉ ruleLine n p els := by
  intro h
  rw [ruleLine, List.mem_append] at h
  cases h with
  | inl hhead => simp at hhead
  | inr hmem => exact pieces_ne_endl els hmem

theorem head_of_pieces {els : List Element} {p : Piece} {rest : List Piece}
    (h : els.flatMap Element.pieces = p :: rest) : p = .blank ∨ p = .readOrSend := by
  cases els with
  | nil => cases h
  | cons el els =>
      rw [List.flatMap_cons] at h
      cases el <;> cases h
      · exact .inr rfl
      · exact .inl rfl
      · exact .inl rfl

/-- The elements are read back from their pieces. -/
theorem pieces_inj : ∀ {els els' : List Element},
    els.flatMap Element.pieces = els'.flatMap Element.pieces → els = els'
  | [], [], _ => rfl
  | [], el :: els', h => by cases el <;> cases h
  | el :: els, [], h => by cases el <;> cases h
  | el :: els, el' :: els', h => by
      rw [List.flatMap_cons, List.flatMap_cons] at h
      have hpost : ∀ {fs : List Element} {q : Bytes} {rest : List Piece},
          fs.flatMap Element.pieces ≠ .post q :: rest := by
        intro fs q rest heq
        obtain h | h := head_of_pieces heq <;> cases h
      cases el with
      | readOrSend =>
          cases el' with
          | readOrSend => rw [pieces_inj (List.append_cancel_left h)]
          | leaf m => cases h
          | node m q => cases h
      | leaf n =>
          cases el' with
          | readOrSend => cases h
          | leaf m =>
              simp only [Element.pieces, List.cons_append, List.nil_append, List.cons.injEq,
                Piece.name.injEq, true_and] at h
              rw [h.1, pieces_inj h.2]
          | node m q =>
              simp only [Element.pieces, List.cons_append, List.nil_append, List.cons.injEq,
                true_and] at h
              exact absurd h.2 hpost
      | node n p =>
          cases el' with
          | readOrSend => cases h
          | leaf m =>
              simp only [Element.pieces, List.cons_append, List.nil_append, List.cons.injEq,
                true_and] at h
              exact absurd h.2.symm hpost
          | node m q =>
              simp only [Element.pieces, List.cons_append, List.nil_append, List.cons.injEq,
                Piece.name.injEq, Piece.post.injEq, true_and] at h
              rw [h.1, h.2.1, pieces_inj h.2.2]

theorem ruleLine_inj {n p m q : Bytes} {els els' : List Element}
    (h : ruleLine n p els = ruleLine m q els') : n = m ∧ p = q ∧ els = els' := by
  simp only [ruleLine, List.cons_append, List.nil_append, List.cons.injEq, Piece.name.injEq,
    Piece.post.injEq, true_and] at h
  exact ⟨h.1, h.2.1, pieces_inj h.2.2⟩

theorem lines_append {l rest : List Piece} (hl : Piece.endl ∉ l) :
    lines (l ++ [.endl, .endl] ++ rest) = l :: [] :: lines rest := by
  have hcons : l ++ [Piece.endl, .endl] ++ rest = l ++ .endl :: ([] ++ .endl :: rest) := by simp
  rw [lines, hcons, List.splitOn_append_cons_self_of_not_mem hl,
    List.splitOn_append_cons_self_of_not_mem List.not_mem_nil, lines]

theorem lines_of_not_mem {l : List Piece} (hl : Piece.endl ∉ l) : lines l = [l] := by
  rw [lines, List.splitOn_eq_singleton]
  exact hl

/-- The first line goes on behind an unfinished one. -/
theorem exists_mem_lines (l rest : List Piece) (hl : Piece.endl ∉ l) :
    ∃ x, l ++ x ∈ lines (l ++ rest) := by
  by_cases h : Piece.endl ∈ rest
  · obtain ⟨x, y, rfl, hx⟩ := List.eq_append_cons_of_mem h
    refine ⟨x, ?_⟩
    rw [← List.append_assoc, lines,
      List.splitOn_append_cons_self_of_not_mem (List.not_mem_append hl hx)]
    exact List.mem_cons_self
  · refine ⟨rest, ?_⟩
    rw [lines_of_not_mem (List.not_mem_append hl h)]
    exact List.mem_singleton_self _

/-! ## Sound lines -/

theorem sound_ruleLine {n p : Bytes} {els : List Element} (h : els ≠ []) :
    Sound (ruleLine n p els) := .inr (.inr ⟨n, p, els, h, rfl⟩)

/-- A list without a head is no sound line. -/
theorem not_sound_list {els : List Element} (hne : els ≠ []) :
    ¬ Sound (els.flatMap Element.pieces) := by
  obtain ⟨el, els, rfl⟩ := List.exists_cons_of_ne_nil hne
  rintro (h | h | ⟨n, p, els', _, h⟩)
  · cases el <;> cases h
  · cases el <;> cases h
  · obtain h | h := head_of_pieces h <;> cases h

/-- Two heads on one line are not sound. -/
theorem not_sound_heads (n p m : Bytes) (x : List Piece) :
    ¬ Sound (ruleLine n p [.readOrSend] ++ .name m :: x) := by
  rintro (h | h | ⟨n', p', els, _, h⟩)
  · cases h
  · cases h
  · simp only [ruleLine, Element.pieces, List.flatMap_cons, List.flatMap_nil, List.cons_append,
      List.nil_append, List.cons.injEq, true_and] at h
    obtain ⟨_, _, h⟩ := h
    cases els with
    | nil => cases h
    | cons el els =>
        rw [List.flatMap_cons] at h
        cases el with
        | readOrSend =>
            obtain h | h := head_of_pieces (List.cons.inj h).2.symm <;> cases h
        | leaf k => cases h
        | node k q => cases h

/-- The text of calls. -/
def textOf (post : Bytes) (vs : List (Option Filter × Node)) : List Piece :=
  vs.flatMap (ownText post)

/-- The lines of calls are sound if and only if they are settled, also behind an
unfinished head. -/
theorem sound_iff (post : Bytes) {vs : List (Option Filter × Node)}
    (hhidden : ∀ v ∈ vs, v.2.info.hidden = false) :
    ((∀ l ∈ lines (textOf post vs), Sound l) ↔ settled (vs.filterMap kind) = true) ∧
    ∀ n : Bytes, (∀ l ∈ lines (ruleLine n post [.readOrSend] ++ textOf post vs), Sound l) ↔
      settled (.opened :: vs.filterMap kind) = true := by
  induction vs with
  | nil =>
      refine ⟨⟨fun _ => rfl, fun _ => ?_⟩, fun n => ⟨fun _ => rfl, fun _ => ?_⟩⟩
      · exact List.forall_mem_singleton.mpr (.inl rfl)
      · have hnil : ruleLine n post [.readOrSend] ++ textOf post [] =
            ruleLine n post [.readOrSend] := List.append_nil _
        rw [hnil, lines_of_not_mem (ruleLine_ne_endl _ _ _)]
        exact List.forall_mem_singleton.mpr (sound_ruleLine nofun)
  | cons v vs ih =>
      rw [List.forall_mem_cons] at hhidden
      obtain ⟨hplain, hbehind⟩ := ih hhidden.2
      have htext : textOf post (v :: vs) = ownText post v ++ textOf post vs := List.flatMap_cons
      rw [htext]
      cases hk : kind v with
      | none =>
          rw [ownText_none hk, List.nil_append, List.filterMap_cons_none hk]
          exact ⟨hplain, hbehind⟩
      | some k =>
          rw [List.filterMap_cons_some hk]
          cases k with
          | rule =>
              obtain ⟨hne, hown⟩ := ownText_rule post hhidden.1 hk
              rw [hown]
              refine ⟨?_, fun n => ⟨fun hall => ?_, fun h => by cases h⟩⟩
              · rw [lines_append (ruleLine_ne_endl _ _ _), List.forall_mem_cons,
                  List.forall_mem_cons, settled, ← hplain]
                exact ⟨fun h => h.2.2, fun h => ⟨sound_ruleLine hne, .inl rfl, h⟩⟩
              · rw [← List.append_assoc, ← List.append_assoc, lines_append
                  (List.not_mem_append (ruleLine_ne_endl _ _ _) (ruleLine_ne_endl _ _ _)),
                  List.forall_mem_cons] at hall
                exact absurd hall.1 (not_sound_heads _ _ _ _)
          | opened =>
              obtain ⟨hels, hown⟩ := ownText_opened post hhidden.1 hk
              rw [hown, hels]
              refine ⟨hbehind v.2.info.name, fun n => ⟨fun hall => ?_, fun h => by cases h⟩⟩
              obtain ⟨x, hx⟩ := exists_mem_lines (ruleLine n post [.readOrSend] ++
                ruleLine v.2.info.name post [.readOrSend]) (textOf post vs)
                (List.not_mem_append (ruleLine_ne_endl _ _ _) (ruleLine_ne_endl _ _ _))
              rw [List.append_assoc, List.append_assoc] at hx
              exact absurd (hall _ hx) (not_sound_heads _ _ _ _)
          | headless =>
              obtain ⟨hne, hown⟩ := ownText_headless post hk
              rw [hown]
              refine ⟨⟨fun hall => ?_, fun h => by cases h⟩, fun n => ?_⟩
              · rw [lines_append (pieces_ne_endl _), List.forall_mem_cons] at hall
                exact absurd hall.1 (not_sound_list hne)
              · have hrule : ruleLine n post [.readOrSend] ++
                    (elements post v).flatMap Element.pieces =
                      ruleLine n post (.readOrSend :: elements post v) := rfl
                rw [← List.append_assoc, ← List.append_assoc, hrule,
                  lines_append (ruleLine_ne_endl _ _ _), List.forall_mem_cons,
                  List.forall_mem_cons, settled, ← hplain]
                exact ⟨fun h => h.2.2, fun h => ⟨sound_ruleLine nofun, .inl rfl, h⟩⟩

/-! ## The rules of a settled text -/

/-- Whether a call writes a head with the name `m`. -/
def heads (m : Bytes) (v : Option Filter × Node) : Bool :=
  (kind v == some .rule || kind v == some .opened) && v.2.info.name == m

/-- What a rule names has been listed by a call. -/
def Named (post : Bytes) (vs : List (Option Filter × Node)) (el : Element) : Prop :=
  el = .readOrSend ∨ ∃ v ∈ vs, ∃ c ∈ listed v.1 v.2, el = element post c

theorem named_elements {post : Bytes} {v : Option Filter × Node}
    {vs : List (Option Filter × Node)} : ∀ el ∈ elements post v, Named post (v :: vs) el := by
  intro el hel
  rw [elements, List.mem_append] at hel
  cases hel with
  | inl hroot =>
      left
      split at hroot
      · exact List.mem_singleton.mp hroot
      · cases hroot
  | inr hmap =>
      obtain ⟨c, hc, rfl⟩ := List.mem_map.mp hmap
      exact .inr ⟨v, List.mem_cons_self, c, hc, rfl⟩

theorem Named.cons {post : Bytes} {v : Option Filter × Node} {vs : List (Option Filter × Node)}
    {el : Element} (h : Named post vs el) : Named post (v :: vs) el :=
  h.imp_right fun ⟨w, hw, c, hc, hel⟩ => ⟨w, List.mem_cons_of_mem v hw, c, hc, hel⟩

theorem defines_ruleLine (m post n : Bytes) (els : List Element) :
    defines m post (ruleLine n post els) = (n == m) := by
  rw [Bool.eq_iff_iff, defines, List.isPrefixOf_iff_prefix, beq_iff_eq, ruleLine]
  constructor
  · rintro ⟨rest, h⟩
    cases h
    rfl
  · rintro rfl
    exact ⟨_, rfl⟩

/-- The rules of the lines `ls`: they name what calls have listed, and there is one for
every head. -/
structure Ruled (post : Bytes) (vs : List (Option Filter × Node)) (ls : List (List Piece))
    (count : Bytes → Nat) : Prop where
  named : ∀ n p els, ruleLine n p els ∈ ls → ∀ el ∈ els, Named post vs el
  counted : ∀ m, ls.countP (defines m post) = count m

theorem Ruled.cons {post : Bytes} {vs : List (Option Filter × Node)} {ls : List (List Piece)}
    {count : Bytes → Nat} (h : Ruled post vs ls count) {n : Bytes} {els : List Element}
    (hels : ∀ el ∈ els, Named post vs el) :
    Ruled post vs (ruleLine n post els :: [] :: ls)
      fun m => (if n = m then 1 else 0) + count m := by
  refine ⟨fun n' p els' hmem => ?_, fun m => ?_⟩
  · cases List.mem_cons.mp hmem with
    | inl heq =>
        obtain ⟨_, _, rfl⟩ := ruleLine_inj heq
        exact hels
    | inr hrest =>
        cases List.mem_cons.mp hrest with
        | inl hnil => cases hnil
        | inr hls => exact h.named n' p els' hls
  · have hnil : defines m post [] = false := rfl
    rw [List.countP_cons, List.countP_cons, hnil, defines_ruleLine, h.counted m]
    simp only [beq_iff_eq, Bool.false_eq_true, if_false]
    omega

theorem Ruled.mono {post : Bytes} {v : Option Filter × Node} {vs : List (Option Filter × Node)}
    {ls : List (List Piece)} {count : Bytes → Nat} (h : Ruled post vs ls count) :
    Ruled post (v :: vs) ls count :=
  ⟨fun n p els hmem el hel => (h.named n p els hmem el hel).cons, h.counted⟩

theorem Ruled.congr {post : Bytes} {vs : List (Option Filter × Node)} {ls : List (List Piece)}
    {count count' : Bytes → Nat} (h : Ruled post vs ls count) (hcount : ∀ m, count m = count' m) :
    Ruled post vs ls count' :=
  ⟨h.named, fun m => (h.counted m).trans (hcount m)⟩

/-- A call with a head counts for its name, another one for none. -/
theorem countP_heads {k : Option Kind} {v : Option Filter × Node} (hk : kind v = k)
    (vs : List (Option Filter × Node)) (m : Bytes) : (v :: vs).countP (heads m) =
      (if (k = some .rule ∨ k = some .opened) ∧ v.2.info.name = m then 1 else 0) +
        vs.countP (heads m) := by
  have hheads : heads m v = true ↔
      (k = some .rule ∨ k = some .opened) ∧ v.2.info.name = m := by
    rw [heads, Bool.and_eq_true, Bool.or_eq_true, beq_iff_eq, beq_iff_eq, beq_iff_eq, hk]
  rw [List.countP_cons, Nat.add_comm]
  congr 1
  exact if_congr hheads rfl rfl

/-- The rules of settled calls, also behind an unfinished head. -/
theorem ruled (post : Bytes) {vs : List (Option Filter × Node)}
    (hhidden : ∀ v ∈ vs, v.2.info.hidden = false) :
    (settled (vs.filterMap kind) = true →
      Ruled post vs (lines (textOf post vs)) fun m => vs.countP (heads m)) ∧
    ∀ n : Bytes, settled (.opened :: vs.filterMap kind) = true →
      Ruled post vs (lines (ruleLine n post [.readOrSend] ++ textOf post vs)) fun m =>
        (if n = m then 1 else 0) + vs.countP (heads m) := by
  have hcommand : ∀ {vs : List (Option Filter × Node)}, ∀ el ∈ [Element.readOrSend],
      Named post vs el := fun el hel => .inl (List.mem_singleton.mp hel)
  induction vs with
  | nil =>
      refine ⟨fun _ => ⟨fun n p els hmem => ?_, fun m => rfl⟩, fun n _ => ?_⟩
      · cases List.mem_singleton.mp hmem
      · have hnil : ruleLine n post [.readOrSend] ++ textOf post [] =
            ruleLine n post [.readOrSend] := List.append_nil _
        rw [hnil, lines_of_not_mem (ruleLine_ne_endl _ _ _)]
        refine ⟨fun n' p els hmem => ?_, fun m => ?_⟩
        · obtain ⟨_, _, rfl⟩ := ruleLine_inj (List.mem_singleton.mp hmem)
          exact hcommand
        · rw [List.countP_cons, defines_ruleLine]
          simp only [beq_iff_eq, List.countP_nil]
          omega
  | cons v vs ih =>
      rw [List.forall_mem_cons] at hhidden
      obtain ⟨hplain, hbehind⟩ := ih hhidden.2
      have htext : textOf post (v :: vs) = ownText post v ++ textOf post vs := List.flatMap_cons
      rw [htext]
      cases hk : kind v with
      | none =>
          rw [ownText_none hk, List.nil_append, List.filterMap_cons_none hk]
          refine ⟨fun h => (hplain h).mono.congr fun m => ?_,
            fun n h => (hbehind n h).mono.congr fun m => ?_⟩
          · rw [countP_heads hk]
            simp
          · rw [countP_heads hk]
            simp
      | some k =>
          rw [List.filterMap_cons_some hk]
          cases k with
          | rule =>
              obtain ⟨_, hown⟩ := ownText_rule post hhidden.1 hk
              rw [hown]
              refine ⟨fun h => ?_, fun n h => by cases h⟩
              rw [lines_append (ruleLine_ne_endl _ _ _)]
              refine ((hplain h).mono.cons named_elements).congr fun m => ?_
              rw [countP_heads hk]
              simp
          | opened =>
              obtain ⟨hels, hown⟩ := ownText_opened post hhidden.1 hk
              rw [hown, hels]
              refine ⟨fun h => (hbehind v.2.info.name h).mono.congr fun m => ?_,
                fun n h => by cases h⟩
              rw [countP_heads hk]
              simp
          | headless =>
              obtain ⟨_, hown⟩ := ownText_headless post hk
              have hrule : ∀ n, ruleLine n post [.readOrSend] ++
                  (elements post v).flatMap Element.pieces =
                    ruleLine n post (.readOrSend :: elements post v) := fun n => rfl
              rw [hown]
              refine ⟨(by cases ·), fun n h => ?_⟩
              rw [← List.append_assoc, ← List.append_assoc, hrule,
                lines_append (ruleLine_ne_endl _ _ _)]
              refine (Ruled.cons (hplain h).mono ?_).congr fun m => ?_
              · exact List.forall_mem_cons.mpr ⟨.inl rfl, named_elements⟩
              · rw [countP_heads hk]
                simp

/-! ## The printed packet -/

mutual

theorem lastPath_subset : ∀ node : Node, node.lastPath ⊆ node.nodes
  | .mk info children => by
      rw [Node.lastPath, Node.nodes]
      exact List.cons_subset_cons _ (lastPathOf_subset children)

theorem lastPathOf_subset : ∀ cs : List Node, Node.lastPathOf cs ⊆ Node.nodesOf cs
  | [] => by
      rw [Node.lastPathOf]
      exact List.nil_subset _
  | [c] => by
      rw [Node.lastPathOf, Node.nodesOf]
      exact List.subset_append_of_subset_left _ (lastPath_subset c)
  | c :: d :: cs => by
      rw [Node.lastPathOf, Node.nodesOf]
      exact List.subset_append_of_subset_right _ (lastPathOf_subset (d :: cs))

end

section Packets

variable {post : Bytes} {f : Filter} {t : Tree}

theorem print_eq (post : Bytes) (f : Filter) (t : Tree) : t.print post f =
    (if t.root.lastPath.any f == false then [.comment] else []) ++
      textOf post (visits (some f) t.root) := by
  rw [Tree.print, printNode_fst, printNode_snd]
  rfl

theorem visits_hidden (hhidden : ∀ node ∈ t.root.nodes, node.info.hidden = false) :
    ∀ v ∈ visits (some f) t.root, v.2.info.hidden = false :=
  fun _ hv => hhidden _ (mem_nodes_of_mem_visits hv)

/-- The text behind the mark in front begins with the head of the root, if it has any. -/
theorem head?_textOf (hhidden : t.root.info.hidden = false) :
    (textOf post (visits (some f) t.root)).head? ≠ some .comment := by
  obtain ⟨root, number, hroot⟩ := t
  cases root with
  | mk info children =>
      rw [visits, textOf, List.flatMap_cons, ownText]
      simp only
      split
      · next hleaf =>
          have hnil : children = [] := List.isEmpty_iff.mp hleaf
          rw [hnil, visitsOf]
          exact nofun
      · have hhead : (passes (some f) (.mk info children) ||
            (Node.mk info children).isRoot) = true := by
          rw [hroot, Bool.or_true]
        rw [line, head, if_pos hhead, hhidden]
        exact nofun

/-- The packet is a comment where no node on the path of last children passes. -/
theorem head?_print (hhidden : t.root.info.hidden = false) :
    (t.print post f).head? = some .comment ↔ t.root.lastPath.any f = false := by
  rw [print_eq]
  cases t.root.lastPath.any f with
  | true => exact ⟨fun h => absurd h (head?_textOf hhidden), fun h => by cases h⟩
  | false => exact ⟨fun _ => rfl, fun _ => rfl⟩

/-- Where nothing passes, all heads stand on one line. -/
theorem endl_not_mem (hhidden : ∀ node ∈ t.root.nodes, node.info.hidden = false)
    (h : ∀ node ∈ t.root.nodes, f node = false) :
    Piece.endl ∉ textOf post (visits (some f) t.root) := by
  intro hmem
  obtain ⟨v, hv, hown⟩ := List.mem_flatMap.mp hmem
  have hfilter := visits_filter t.root h v hv
  have hfails : ∀ {node}, node ∈ t.root.nodes → passes v.1 node = false := by
    intro node hnode
    rw [hfilter]
    exact h node hnode
  have hlisted : listed v.1 v.2 = [] := by
    rw [listed, List.filter_eq_nil_iff]
    intro c hc
    have hnode := mem_nodes_of_mem_visits (visits_child (some f) t.root hv c hc)
    rw [hfails (mem_nodes_of_mem_visits hv), hfails hnode]
    exact nofun
  cases hk : kind v with
  | none =>
      rw [ownText_none hk] at hown
      cases hown
  | some k =>
      have hof := of_kind hk
      cases k with
      | rule => exact hof.2.2 hlisted
      | opened =>
          rw [(ownText_opened post (visits_hidden hhidden v hv) hk).2] at hown
          exact ruleLine_ne_endl _ _ _ hown
      | headless => exact hof.2.2.2 hlisted

/-- A node that a call lists writes the only head of its name. -/
theorem countP_heads_eq_one (hnames : (t.root.nodes.map fun node => node.info.name).Nodup)
    {v : Option Filter × Node} (hv : v ∈ visits (some f) t.root) {c : Node}
    (hc : c ∈ listed v.1 v.2) (hleaf : c.isLeaf = false) :
    (visits (some f) t.root).countP (heads c.info.name) = 1 := by
  have hchild := List.mem_filter.mp hc
  have hpasses : passes (below v.1 v.2) c = true := by
    have hor := hchild.2
    rw [below]
    cases hnode : passes v.1 v.2 with
    | true => rfl
    | false =>
        rw [hnode] at hor
        exact hor
  have hmem := visits_child (some f) t.root hv c hchild.1
  have hheads : heads c.info.name (below v.1 v.2, c) = true := by
    rw [heads, kind, hleaf, hpasses]
    simp
  refine Nat.le_antisymm ?_ (List.countP_pos_iff.mpr ⟨_, hmem, hheads⟩)
  have hname : ∀ w : Option Filter × Node, heads c.info.name w = true →
      (w.2.info.name == c.info.name) = true := fun w hw => (Bool.and_eq_true_iff.mp hw).2
  calc (visits (some f) t.root).countP (heads c.info.name)
      ≤ (visits (some f) t.root).countP (fun w => w.2.info.name == c.info.name) :=
        List.countP_mono_left fun w _ => hname w
    _ = (t.root.nodes.map fun node => node.info.name).count c.info.name := by
        rw [← visits_nodes (some f) t.root, List.map_map, List.count, List.countP_map]
        rfl
    _ ≤ 1 := List.nodup_iff_count_le_one.mp hnames _

end Packets

/-- A packet is printed as it should be if and only if nothing passes the filter, or a node on
the path of last children passes and the calls are settled. -/
theorem wellPrinted_iff (post : Bytes) (f : ProtocolFilter) (t : Tree)
    (hhidden : ∀ node ∈ t.root.nodes, node.info.hidden = false)
    (hnames : (t.root.nodes.map fun node => node.info.name).Nodup) :
    WellPrinted post f.filter t ↔
      (∀ node ∈ t.root.nodes, f.filter node = false) ∨
        (∃ node ∈ t.root.lastPath, f.filter node = true) ∧
          settled ((visits (some f.filter) t.root).filterMap kind) = true := by
  have hroot : t.root.info.hidden = false := by
    refine hhidden t.root ?_
    cases t.root
    rw [Node.nodes]
    exact List.mem_cons_self
  have hprint := print_eq post f.filter t
  have hsound := (sound_iff post (visits_hidden (f := f.filter) hhidden)).1
  have hruled := (ruled post (visits_hidden (f := f.filter) hhidden)).1
  constructor
  · intro h
    by_cases hall : ∀ node ∈ t.root.nodes, f.filter node = false
    · exact .inl hall
    · have hany : t.root.lastPath.any f.filter = true := by
        rw [← Bool.not_eq_false]
        exact fun hnone => hall (h.commented.mp ((head?_print hroot).mpr hnone))
      have hcomplete := h.complete
      rw [hprint, hany] at hcomplete
      exact .inr ⟨List.any_eq_true.mp hany, hsound.mp hcomplete⟩
  · rintro (hall | ⟨hlast, hsettled⟩)
    · have hnone : t.root.lastPath.any f.filter = false := by
        rw [List.any_eq_false]
        intro node hnode
        rw [hall node (lastPath_subset t.root hnode)]
        exact nofun
      have hlines : lines (t.print post f.filter) =
          [.comment :: textOf post (visits (some f.filter) t.root)] := by
        rw [hprint, hnone]
        refine lines_of_not_mem (List.not_mem_append ?_ (endl_not_mem hhidden hall))
        exact nofun
      refine ⟨?_, ?_, iff_of_true ((head?_print hroot).mpr hnone) hall⟩
      · rw [hlines]
        exact List.forall_mem_singleton.mpr (.inr (.inl rfl))
      · intro n p els hmem
        rw [hlines] at hmem
        cases List.mem_singleton.mp hmem
    · have hany : t.root.lastPath.any f.filter = true := List.any_eq_true.mpr hlast
      rw [hany] at hprint
      have htext : t.print post f.filter = textOf post (visits (some f.filter) t.root) := hprint
      have hrules := hruled hsettled
      refine ⟨?_, ?_, ?_⟩
      · rw [htext]
        exact hsound.mpr hsettled
      · rw [htext]
        intro n p els hmem m q hel
        obtain h | ⟨v, hv, c, hc, h⟩ := hrules.named n p els hmem _ hel
        · cases h
        · rw [element] at h
          split at h
          · cases h
          · next hleaf =>
              cases h
              rw [hrules.counted]
              exact countP_heads_eq_one hnames hv hc (Bool.eq_false_iff.mpr hleaf)
      · rw [head?_print hroot, hany]
        refine iff_of_false nofun fun hall => ?_
        obtain ⟨node, hnode, hpasses⟩ := hlast
        rw [hall node (lastPath_subset t.root hnode)] at hpasses
        cases hpasses

/-- The filter for the third layer of a packet of `eth:ip`. -/
def thirdLayer : ProtocolFilter := ⟨[ascii "eth", ascii "ip"], 3⟩

def leafAt (position : Int) (name protocol : String) : Node :=
  .mk { name := ascii name, position, protocol := ascii protocol } []

/-- A header with one field. -/
def ipHeader : Node :=
  (leafAt 14 "InternetProtocol" "ip").addChild (leafAt 14 "%x45" "ip.version")

/-- A packet that has the header inside of the frame. -/
def nested : Tree where
  root := (leafAt 0 "packet" "root").addChild ((leafAt 0 "Ethernet" "eth").addChild ipHeader)
  number := 1
  isRoot := by decide

theorem wellPrinted_nested : WellPrinted (ascii "-1") thirdLayer.filter nested :=
  (wellPrinted_iff (ascii "-1") thirdLayer nested (by decide) (by decide)).mpr
    (.inr (by decide))

/-- A packet with a trailer of the frame behind the header. -/
def trailed : Tree where
  root := ((leafAt 0 "packet" "root").addChild ipHeader).addChild
    ((leafAt 34 "Trailer" "eth").addChild (leafAt 34 "%x00" "eth.trailer"))
  number := 1
  isRoot := by decide

/-- The trailer makes a comment of the packet, although the header passes. -/
theorem trailer_hides_packet :
    ¬ ∀ (post : Bytes) (f : ProtocolFilter) (t : Tree),
      (∀ node ∈ t.root.nodes, node.info.hidden = false) →
        (t.root.nodes.map fun node => node.info.name).Nodup → WellPrinted post f.filter t := by
  intro hall
  have h := hall (ascii "-1") thirdLayer trailed (by decide) (by decide)
  have hcomment : (trailed.print (ascii "-1") thirdLayer.filter).head? = some .comment := by decide
  have hheader : ¬ ∀ node ∈ trailed.root.nodes, thirdLayer.filter node = false := by decide
  exact hheader (h.commented.mp hcomment)

end Stress.Dissector

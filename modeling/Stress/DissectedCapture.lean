import Stress.AbnfString
import Stress.PacketPrinter
import Stress.WrittenGrammar

/-!
# From a capture to the tree of the tester

The dissector saves a capture as one file (`CaptureModel::savePacketsAsAbnf` in
`tools/dissector/src/model.cpp`): the rule of the root names the packets in their order, and
each packet is printed behind it under its own number.  The tester reads the file with its
own scanner and parser.

`capture_read` says that the parser accepts the file of a capture without hidden or filtered
nodes, and that it builds the very tree that the dissector had.
-/

namespace Stress

open Relation RegularExpression

/-! ## Files of rules -/

/-- A rule of a command, if there is one, and elements in a row. -/
def Rule.ofElements (t : Lexeme rulename) (c : Option (Lexeme command)) (e : AbnfElement)
    (es : List AbnfElement) : Rule :=
  match c with
  | none => .defined t (.concatenation (.ofElements e es))
  | some c => .definedWith t c (.concatenation (.ofElements e es))

/-- The token of a command, if there is one. -/
def commandTokens (c : Option (Lexeme command)) : List Token :=
  (c.map fun c => ⟨.command, c.text⟩).toList

section Rules

variable (t : Lexeme rulename) (c : Option (Lexeme command)) (e : AbnfElement)
  (es : List AbnfElement)

theorem Rule.ofElements_tokens : (ofElements t c e es).tokens =
    ⟨.rulename, t.text⟩ :: ⟨.equal, ascii "="⟩ ::
      (commandTokens c ++ (e :: es).flatMap AbnfElement.tokens) := by
  cases c with
  | none =>
      rw [ofElements, tokens, Alternation.tokens, Concatenation.ofElements_tokens,
        List.flatMap_cons]
      rfl
  | some c =>
      rw [ofElements, tokens, Alternation.tokens, Concatenation.ofElements_tokens,
        List.flatMap_cons]
      rfl

theorem Rule.ofElements_run (values : Values) : (ofElements t c e es).run values =
    .ok (addValue (.node .composite t.text
      (commandNode c ++ (e :: es).flatMap AbnfElement.nodes)) values) := by
  cases c with
  | none =>
      rw [ofElements, run, define_eq, Alternation.nodes, Concatenation.ofElements_nodes]
      rfl
  | some c =>
      rw [ofElements, run, define_eq, Alternation.nodes, Concatenation.ofElements_nodes]
      rfl

theorem Rule.ofElements_name : (ofElements t c e es).name = t.text := by
  cases c <;> rfl

end Rules

/-- The text consists of the lines of these rules and of empty ones. -/
def Prints (s : Bytes) (book : Book) : Prop :=
  ∃ ls : List Line,
    (∀ {rest ts}, Scans rest ts → Scans (s ++ rest) (ls.flatMap Line.tokens ++ ts)) ∧
    (∀ t ∈ ls.flatMap Line.tokens, t.isInvalid = false) ∧
    List.Forall₂ Enters book (ls.filterMap Line.rule)

namespace Prints

variable {s s' : Bytes} {book book' : Book}

theorem nil : Prints [] [] := ⟨[], fun h => h, List.forall_mem_nil _, .nil⟩

theorem append (h : Prints s book) (h' : Prints s' book') : Prints (s ++ s') (book ++ book') := by
  obtain ⟨ls, hscan, hvalid, hrules⟩ := h
  obtain ⟨ls', hscan', hvalid', hrules'⟩ := h'
  refine ⟨ls ++ ls', fun hrest => ?_, ?_, ?_⟩
  · rw [List.flatMap_append, List.append_assoc, List.append_assoc]
    exact hscan (hscan' hrest)
  · rw [List.flatMap_append]
    exact List.forall_mem_append.mpr ⟨hvalid, hvalid'⟩
  · rw [List.filterMap_append]
    exact List.rel_append hrules hrules'

theorem flatMap {α : Type} {text : α → Bytes} {entries : α → Book} {l : List α}
    (h : ∀ a ∈ l, Prints (text a) (entries a)) : Prints (l.flatMap text) (l.flatMap entries) := by
  induction l with
  | nil => exact nil
  | cons a l ih =>
      rw [List.forall_mem_cons] at h
      rw [List.flatMap_cons, List.flatMap_cons]
      exact h.1.append (ih h.2)

theorem newline : Prints [10] [] :=
  ⟨[AnomalyInjector.emptyLine], fun h => AnomalyInjector.scans_emptyLine h,
    List.forall_mem_singleton.mpr rfl, .nil⟩

/-- A name, an equal sign and a row of elements. -/
theorem rule {t : Lexeme rulename} {c : Option (Lexeme command)} {es : List AbnfElement}
    (ht : Token.Word ⟨.rulename, t.text⟩) (hne : es ≠ [])
    (h : Row s (commandTokens c ++ es.flatMap AbnfElement.tokens)) :
    Prints (t.text ++ ascii " =" ++ s ++ [10])
      [(t.text, commandNode c ++ es.flatMap AbnfElement.nodes)] := by
  obtain ⟨e, es, rfl⟩ := List.exists_cons_of_ne_nil hne
  have hrow := Row.single Token.word_equal h
  refine ⟨[⟨some (.ofElements t c e es), ⟨.crlf, [10]⟩, rfl⟩], fun {rest ts} hrest => ?_, ?_,
    .cons ⟨Rule.ofElements_name t c e es, Rule.ofElements_run t c e es⟩ .nil⟩
  · rw [List.flatMap_singleton, Line.tokens, Option.map_some, Option.getD_some,
      Rule.ofElements_tokens]
    have hscan := ht.scans (hrow.stop rest) (hrow.scans hrest)
    have htext : t.text ++ ascii " =" ++ s ++ [10] ++ rest =
        t.text ++ (32 :: ascii "=" ++ s ++ 10 :: rest) := by
      simp only [List.append_assoc]
      rfl
    rw [htext]
    refine (List.append_assoc _ _ ts).symm ▸ ?_
    exact hscan
  · rw [List.flatMap_singleton, Line.tokens, Option.map_some, Option.getD_some,
      Rule.ofElements_tokens]
    refine List.forall_mem_append.mpr ⟨List.forall_mem_cons.mpr ⟨ht.valid, hrow.valid⟩,
      List.forall_mem_singleton.mpr rfl⟩

end Prints

/-! ## The parse of a file -/

/-- The parser accepts the text, and the tree it builds is `u`. -/
def ReadExactly (s : Bytes) (u : Tree) : Prop :=
  ∃ p rules, ABNFParser.Parse s (.done p rules) ∧ p.parsingResult = true ∧ p.NoErrors ∧
    AnomalyInjector.ExpandsTo rules u

theorem Prints.read {s n : Bytes} {us : List Tree} {book : Book} {u : Tree}
    (h : Prints s ((n, us) :: book)) (hc : Book.Complete ((n, us) :: book) n)
    (hu : Expands (Book.values ((n, us) :: book)) (.node .composite n []) u) :
    ReadExactly s u := by
  obtain ⟨ls, hscan, hvalid, hrules⟩ := h
  have hscan : Scans s (ls.flatMap Line.tokens) := by
    have hall := hscan .nil
    rwa [List.append_nil, List.append_nil] at hall
  obtain ⟨p, r, rest, fuel, b, hparse, hresult, hno, hrulelist, hexpand, hexpands⟩ :=
    hc.parse hscan hvalid hrules
  obtain rfl := hu.unique hexpands
  exact ⟨p, _, hparse, hresult, hno, r, rest, _, fuel, b, rfl, hrulelist, hexpand, rfl⟩

/-! ## The trees of a packet -/

namespace Dissector

/-- The text in the rule of a packet, which the tester takes for a command. -/
def readOrSend : Lexeme command where
  text := ascii "<read or send>"
  mem := (rmatch_iff_matches' _ _).mp (by decide +kernel)

/-- The command in the rule of a node. -/
def Node.command (v : Node) : Option (Lexeme command) := if v.isRoot then some readOrSend else none

section Trees

variable (literals : Bytes → List Literal) (post : Bytes)

/-- The leaves that a leaf of the dissector is read as. -/
def Node.leaves (v : Node) : List Stress.Tree :=
  (literals v.info.name).map fun l => .leaf l.kind l.name

/-- A node in the rule of its parent. -/
def Node.reference (v : Node) : List Stress.Tree :=
  if v.isLeaf then v.leaves literals else [.node .composite (v.info.name ++ post) []]

/-- The body of the rule of a node. -/
def Node.body (v : Node) : List Stress.Tree :=
  commandNode v.command ++ v.children.flatMap (Node.reference literals post)

mutual

/-- The trees of the tester for a node of the dissector. -/
def Node.trees : Node → List Stress.Tree
  | .mk info children =>
      if children.isEmpty then (Node.mk info children).leaves literals
      else [.node .composite (info.name ++ post)
        (commandNode (Node.mk info children).command ++ Node.treesOf children)]

def Node.treesOf : List Node → List Stress.Tree
  | [] => []
  | c :: cs => Node.trees c ++ Node.treesOf cs

end

end Trees

/-- What comes behind the names in a packet. -/
def Tree.post (t : Tree) : Bytes := 45 :: showInt t.number

/-- `Packet::getName`. -/
def Tree.packetName (t : Tree) : Bytes := ascii "packet-" ++ showInt t.number

/-- `savePacketsAsAbnf` for one file.  Every packet has a filter of its own. -/
def savePacketsAsAbnf (packets : List (Filter × Tree)) : Bytes :=
  ascii "root =" ++ packets.flatMap (fun p => 32 :: p.2.packetName) ++ [10] ++ [10] ++
    packets.flatMap (fun p => (p.2.printTree p.1 false).flatMap Piece.text ++ [10]) ++ [10]

/-- The tree of a capture. -/
def captureTree (literals : Bytes → List Literal) (packets : List (Filter × Tree)) : Stress.Tree :=
  .node .composite (ascii "root")
    (packets.flatMap fun p => p.2.root.trees literals p.2.post)

/-- The name of an inner node is the name of a rule, and the text of a leaf is read as
literals. -/
structure Node.Legal (literals : Bytes → List Literal) (v : Node) : Prop where
  name : v.isLeaf = false → v.info.name ∈ rulename.matches'
  value : v.isLeaf = true → literals v.info.name ≠ [] ∧
    Row (32 :: v.info.name) ((literals v.info.name).map Literal.token)

/-- A packet that is printed as a whole, with legal and distinct names. -/
structure Readable (literals : Bytes → List Literal) (p : Filter × Tree) : Prop where
  named : p.2.root.info.name = ascii "packet"
  inner : p.2.root.isLeaf = false
  number : 0 ≤ p.2.number
  shown : ∀ v ∈ p.2.root.nodes, p.1 v = true ∧ v.info.hidden = false
  legal : ∀ v ∈ p.2.root.nodes, v.Legal literals
  distinct : ((p.2.root.nodes.filter fun v => !v.isLeaf).map fun v => v.info.name).Nodup

/-! ## Nodes -/

section Nodes

variable {literals : Bytes → List Literal} {post : Bytes} {v w c : Node}

theorem Node.induction {P : Node → Prop} (h : ∀ v, (∀ c ∈ v.children, P c) → P v) (v : Node) :
    P v := by
  refine @Node.rec P (fun cs => ∀ c ∈ cs, P c) ?_ ?_ ?_ v
  · intro info children ih
    exact h _ ih
  · exact List.forall_mem_nil _
  · intro c cs ihc ihcs
    exact List.forall_mem_cons.mpr ⟨ihc, ihcs⟩

theorem Node.nodesOf_eq (cs : List Node) : Node.nodesOf cs = cs.flatMap Node.nodes := by
  induction cs with
  | nil => rw [Node.nodesOf, List.flatMap_nil]
  | cons c cs ih => rw [Node.nodesOf, ih, List.flatMap_cons]

theorem Node.nodes_eq (v : Node) : v.nodes = v :: v.children.flatMap Node.nodes := by
  cases v with
  | mk info children => rw [Node.nodes, Node.nodesOf_eq, Node.children]

theorem Node.mem_nodes_self (v : Node) : v ∈ v.nodes := by
  rw [Node.nodes_eq]
  exact List.mem_cons_self

theorem Node.child_mem_nodes (hc : c ∈ v.children) : c ∈ v.nodes := by
  rw [Node.nodes_eq]
  exact List.mem_cons_of_mem _ (List.mem_flatMap.mpr ⟨c, hc, c.mem_nodes_self⟩)

theorem Node.nodes_trans (hw : w ∈ v.nodes) (hc : c ∈ w.nodes) : c ∈ v.nodes := by
  induction v using Node.induction with
  | h v ih =>
      rw [Node.nodes_eq, List.mem_cons] at hw
      obtain rfl | hw := hw
      · exact hc
      · obtain ⟨d, hd, hw⟩ := List.mem_flatMap.mp hw
        rw [Node.nodes_eq]
        exact List.mem_cons_of_mem _ (List.mem_flatMap.mpr ⟨d, hd, ih d hd hw⟩)

theorem Node.treesOf_eq (cs : List Node) :
    Node.treesOf literals post cs = cs.flatMap (Node.trees literals post) := by
  induction cs with
  | nil => rw [Node.treesOf, List.flatMap_nil]
  | cons c cs ih => rw [Node.treesOf, ih, List.flatMap_cons]

theorem Node.trees_leaf (h : v.isLeaf = true) :
    v.trees literals post = v.leaves literals := by
  cases v with
  | mk info children =>
      rw [Node.trees]
      exact if_pos h

theorem Node.trees_inner (h : v.isLeaf = false) : v.trees literals post =
    [.node .composite (v.info.name ++ post)
      (commandNode v.command ++ v.children.flatMap (Node.trees literals post))] := by
  cases v with
  | mk info children =>
      rw [Node.trees, ← Node.treesOf_eq]
      exact if_neg (by rw [show children.isEmpty = false from h]; exact Bool.false_ne_true)

theorem mem_references_reference {m : Bytes} :
    m ∈ (v.reference literals post).flatMap Stress.Tree.references ↔
      v.isLeaf = false ∧ m = v.info.name ++ post := by
  cases hleaf : v.isLeaf with
  | true =>
      rw [Node.reference, if_pos hleaf, Node.leaves]
      refine iff_of_false (fun hm => ?_) fun h => Bool.noConfusion h.1
      obtain ⟨t, ht, hm⟩ := List.mem_flatMap.mp hm
      obtain ⟨l, _, rfl⟩ := List.mem_map.mp ht
      rw [Stress.Tree.references] at hm
      cases hm
  | false =>
      rw [Node.reference, if_neg (by rw [hleaf]; exact Bool.false_ne_true),
        List.flatMap_singleton, Stress.Tree.references, List.mem_singleton, and_iff_right rfl]

theorem mem_references_body {m : Bytes} :
    m ∈ (v.body literals post).flatMap Stress.Tree.references ↔
      ∃ c ∈ v.children, c.isLeaf = false ∧ m = c.info.name ++ post := by
  have hcommand : (commandNode v.command).flatMap Stress.Tree.references = [] := by
    cases v.command with
    | none => rfl
    | some c => rfl
  rw [Node.body, List.flatMap_append, hcommand, List.nil_append, List.flatMap_assoc,
    List.mem_flatMap]
  exact exists_congr fun c => and_congr_right fun _ => mem_references_reference

end Nodes

/-! ## The text of a capture -/

/-- The rules of a packet. -/
def packetBook (literals : Bytes → List Literal) (t : Tree) : Book :=
  t.root.nodes.flatMap fun v =>
    if v.isLeaf then [] else [(v.info.name ++ t.post, v.body literals t.post)]

/-- The rules of a capture. -/
def captureBook (literals : Bytes → List Literal) (packets : List (Filter × Tree)) : Book :=
  (ascii "root", packets.map fun p => .node .composite p.2.packetName []) ::
    packets.flatMap fun p => packetBook literals p.2

section Texts

variable {literals : Bytes → List Literal} {k : Nat} {v c : Node} {g : Option Filter}

theorem word_name {u : Lexeme rulename} {n : Bytes} (hu : u.text = n ++ 45 :: showNat k) :
    Token.Word ⟨.rulename, u.text⟩ := by
  refine Token.word_rulename ?_
  rw [hu]
  exact List.mem_append_right _ List.mem_cons_self

theorem literal_tokens (ls : List Literal) :
    (ls.map AbnfElement.literal).flatMap AbnfElement.tokens = ls.map Literal.token := by
  induction ls with
  | nil => rfl
  | cons l ls ih =>
      rw [List.map_cons, List.flatMap_cons, ih, AbnfElement.tokens]
      rfl

theorem literal_nodes (ls : List Literal) : (ls.map AbnfElement.literal).flatMap AbnfElement.nodes =
    ls.map fun l => .leaf l.kind l.name := by
  induction ls with
  | nil => rfl
  | cons l ls ih =>
      rw [List.map_cons, List.flatMap_cons, ih, AbnfElement.nodes]
      rfl

/-- A child is read as elements in the rule of its parent. -/
theorem Node.Legal.exists_elements (h : c.Legal literals) : ∃ es : List AbnfElement, es ≠ [] ∧
    Row ((childName (45 :: showNat k) c).flatMap Piece.text) (es.flatMap AbnfElement.tokens) ∧
      es.flatMap AbnfElement.nodes = c.reference literals (45 :: showNat k) := by
  cases hleaf : c.isLeaf with
  | true =>
      obtain ⟨hne, hrow⟩ := h.value hleaf
      refine ⟨(literals c.info.name).map .literal, by simpa using hne, ?_, ?_⟩
      · have htext : (childName (45 :: showNat k) c).flatMap Piece.text = 32 :: c.info.name := by
          rw [childName, if_pos hleaf]
          simp [Piece.text, ascii]
        rw [htext, literal_tokens]
        exact hrow
      · rw [literal_nodes, Node.reference, if_pos hleaf]
        rfl
  | false =>
      obtain ⟨u, hu⟩ := AnomalyInjector.exists_lhs ⟨c.info.name, h.name hleaf⟩ k rfl
      refine ⟨[.rulename u], List.cons_ne_nil _ _, ?_, ?_⟩
      · have htext : (childName (45 :: showNat k) c).flatMap Piece.text =
            32 :: u.text ++ List.replicate 0 32 := by
          rw [childName, if_neg (by rw [hleaf]; exact Bool.false_ne_true), hu]
          simp [Piece.text, ascii]
        rw [htext, List.flatMap_singleton, AbnfElement.tokens]
        exact Row.single (word_name hu) (.blanks 0)
      · rw [List.flatMap_singleton, AbnfElement.nodes, hu, Node.reference,
          if_neg (by rw [hleaf]; exact Bool.false_ne_true)]

theorem exists_elements {cs : List Node} (h : ∀ c ∈ cs, c.Legal literals) :
    ∃ es : List AbnfElement, (cs ≠ [] → es ≠ []) ∧
      Row ((cs.flatMap (childName (45 :: showNat k))).flatMap Piece.text)
        (es.flatMap AbnfElement.tokens) ∧
      es.flatMap AbnfElement.nodes = cs.flatMap (Node.reference literals (45 :: showNat k)) := by
  induction cs with
  | nil => exact ⟨[], fun hne => absurd rfl hne, .blanks 0, rfl⟩
  | cons c cs ih =>
      rw [List.forall_mem_cons] at h
      obtain ⟨es, hne, hrow, hnodes⟩ := h.1.exists_elements (k := k)
      obtain ⟨es', _, hrow', hnodes'⟩ := ih h.2
      refine ⟨es ++ es', fun _ => List.append_ne_nil_of_left_ne_nil hne _, ?_, ?_⟩
      · rw [List.flatMap_cons, List.flatMap_append, List.flatMap_append]
        exact hrow.append hrow'
      · rw [List.flatMap_append, List.flatMap_cons, hnodes, hnodes']

/-- An inner node that passes is printed as its rule. -/
theorem prints_node (hpass : passes g v = true) (hhidden : v.info.hidden = false)
    (hleaf : v.isLeaf = false) (hlegal : v.Legal literals)
    (hchildren : ∀ c ∈ v.children, c.Legal literals) :
    Prints ((ownText (45 :: showNat k) (g, v)).flatMap Piece.text)
      [(v.info.name ++ 45 :: showNat k, v.body literals (45 :: showNat k))] := by
  obtain ⟨u, hu⟩ := AnomalyInjector.exists_lhs ⟨v.info.name, hlegal.name hleaf⟩ k rfl
  obtain ⟨es, hne, hrow, hnodes⟩ := exists_elements (k := k) hchildren
  have hne : es ≠ [] := hne fun hnil => by
    rw [Node.isLeaf, hnil] at hleaf
    cases hleaf
  have hlisted : listed g v = v.children := listed_of_passes (v := (g, v)) hpass
  have htext : (ownText (45 :: showNat k) (g, v)).flatMap Piece.text = u.text ++ ascii " =" ++
      (32 :: (v.command.map Lexeme.text).getD [] ++
        (v.children.flatMap (childName (45 :: showNat k))).flatMap Piece.text) ++ [10] ++ [10] := by
    rw [ownText, hleaf, if_neg Bool.false_ne_true, line, head, hpass, hlisted, hhidden, hu,
      Node.command]
    cases v.isRoot <;> simp [Piece.text, ascii, readOrSend]
  rw [htext, Node.body, ← hnodes, ← hu]
  refine (Prints.rule (word_name hu) hne ?_).append .newline
  cases hcommand : v.command with
  | none => exact hrow.blank
  | some c => exact Row.single (Token.word_command c) hrow

theorem visitsOf_eq (g : Option Filter) (cs : List Node) :
    visitsOf g cs = cs.flatMap (visits g) := by
  induction cs with
  | nil => rw [visitsOf, List.flatMap_nil]
  | cons c cs ih => rw [visitsOf, ih, List.flatMap_cons]

theorem visits_none {w : Option Filter × Node} (hw : w ∈ visits none v) : w.1 = none := by
  induction v using Node.induction with
  | h v ih =>
      cases v with
      | mk info children =>
          rw [visits, visitsOf_eq, List.mem_cons] at hw
          obtain rfl | hw := hw
          · rfl
          · obtain ⟨c, hc, hw⟩ := List.mem_flatMap.mp hw
            exact ih c hc hw

/-- Below a node that passes everything does. -/
theorem passes_of_visits {f : Filter} (h : f v = true) {w : Option Filter × Node}
    (hw : w ∈ visits (some f) v) : passes w.1 w.2 = true := by
  cases v with
  | mk info children =>
      have hbelow : below (some f) (.mk info children) = none := if_pos h
      rw [visits, visitsOf_eq, List.mem_cons, hbelow] at hw
      obtain rfl | hw := hw
      · exact h
      · obtain ⟨c, _, hw⟩ := List.mem_flatMap.mp hw
        rw [visits_none hw]
        rfl

end Texts

section Packets

variable {literals : Bytes → List Literal} {p : Filter × Tree} {packets : List (Filter × Tree)}

theorem Readable.post (h : Readable literals p) : ∃ k : Nat, p.2.number = k ∧
    p.2.post = 45 :: showNat k ∧ p.2.packetName = ascii "packet" ++ 45 :: showNat k := by
  obtain ⟨k, hk⟩ := Int.eq_ofNat_of_zero_le h.number
  refine ⟨k, hk, ?_, ?_⟩
  · rw [Tree.post, hk, showInt_natCast]
  · rw [Tree.packetName, hk, showInt_natCast]
    rfl

/-- A packet is printed as its rules. -/
theorem Readable.prints (h : Readable literals p) :
    Prints ((p.2.printTree p.1 false).flatMap Piece.text) (packetBook literals p.2) := by
  obtain ⟨k, _, hpost, _⟩ := h.post
  have hroot := (h.shown _ p.2.root.mem_nodes_self).1
  have hlast : p.2.root.lastPath.any p.1 = true := by
    refine List.any_eq_true.mpr ⟨p.2.root, ?_, hroot⟩
    cases p.2.root with
    | mk info children =>
        rw [Node.lastPath]
        exact List.mem_cons_self
  have htext : p.2.printTree p.1 false =
      (visits (some p.1) p.2.root).flatMap (ownText p.2.post) := by
    rw [Tree.printTree, if_neg Bool.false_ne_true, print_eq, hlast]
    rfl
  rw [htext, List.flatMap_assoc, packetBook, ← visits_nodes (some p.1), List.flatMap_map]
  refine Prints.flatMap fun w hw => ?_
  have hmem := mem_nodes_of_mem_visits hw
  cases hleaf : w.2.isLeaf with
  | true =>
      rw [ownText, hleaf]
      exact .nil
  | false =>
      rw [if_neg Bool.false_ne_true, hpost]
      exact prints_node (passes_of_visits hroot hw) (h.shown _ hmem).2 hleaf (h.legal _ hmem)
        fun c hc => h.legal c (Node.nodes_trans hmem (Node.child_mem_nodes hc))

/-- The name of the root. -/
def rootName : Lexeme rulename where
  text := ascii "root"
  mem := mem_rulename.mpr ⟨114, ascii "oot", by decide, List.all_eq_true.mp rfl, rfl⟩

theorem word_root : Token.Word ⟨.rulename, rootName.text⟩ where
  munch rest h := by
    have hcore : coreRules.all (fun q => !(ScanRule.core q.1 q.2).begins 114) = true := by
      decide +kernel
    have hbefore : ScanRule.rulename.before.all (fun q => !q.begins 114) = true := by
      decide +kernel
    have hbehind : ScanRule.rulename.behind = [.any] := by decide
    rw [List.all_eq_true] at hcore hbefore
    refine munch_of_begins (by decide) (Nat.succ_pos _)
      (longest_plain rootName.mem (by decide +kernel) h) (fun q hq => .inl ?_)
      (fun q hq => .inl ?_) fun q hq => ?_
    · exact (Bool.not_eq_true' _).mp (hcore q hq)
    · exact (Bool.not_eq_true' _).mp (hbefore q hq)
    · rw [hbehind, List.mem_singleton] at hq
      rw [hq]
      exact .inr fun m hm => (longest_cls hm).trans_le (Nat.succ_pos _)
  emits := rfl
  valid := rfl
  front := ⟨114, ascii "oot", rfl, rfl⟩

theorem exists_packets (h : ∀ p ∈ packets, Readable literals p) : ∃ es : List AbnfElement,
    (packets ≠ [] → es ≠ []) ∧
      Row (packets.flatMap fun p => 32 :: p.2.packetName) (es.flatMap AbnfElement.tokens) ∧
      es.flatMap AbnfElement.nodes = packets.map fun p => .node .composite p.2.packetName [] := by
  induction packets with
  | nil => exact ⟨[], fun hne => absurd rfl hne, .blanks 0, rfl⟩
  | cons p packets ih =>
      rw [List.forall_mem_cons] at h
      obtain ⟨es, _, hrow, hnodes⟩ := ih h.2
      obtain ⟨k, _, _, hname⟩ := h.1.post
      have hpacket := h.1.legal _ p.2.root.mem_nodes_self
      obtain ⟨u, hu⟩ := AnomalyInjector.exists_lhs
        ⟨p.2.root.info.name, hpacket.name h.1.inner⟩ k h.1.named
      refine ⟨.rulename u :: es, fun _ => List.cons_ne_nil _ _, ?_, ?_⟩
      · rw [List.flatMap_cons, List.flatMap_cons, AbnfElement.tokens, hname, ← hu]
        exact Row.single (word_name hu) hrow
      · rw [List.flatMap_cons, List.map_cons, hnodes, AbnfElement.nodes, hu, hname]
        rfl

/-- A capture is saved as its rules. -/
theorem prints_capture (hne : packets ≠ []) (h : ∀ p ∈ packets, Readable literals p) :
    Prints (savePacketsAsAbnf packets) (captureBook literals packets) := by
  obtain ⟨es, hes, hrow, hnodes⟩ := exists_packets h
  have hroot := Prints.rule (c := none) word_root (hes hne) hrow
  have hpackets : Prints
      (packets.flatMap fun p => (p.2.printTree p.1 false).flatMap Piece.text ++ [10])
      (packets.flatMap fun p => packetBook literals p.2) :=
    Prints.flatMap fun p hp => by
      have hlines := (h p hp).prints.append .newline
      rwa [List.append_nil] at hlines
  have hall := ((hroot.append .newline).append hpackets).append .newline
  rw [List.append_nil, List.append_nil, hnodes] at hall
  exact hall

end Packets

section Capture

variable {literals : Bytes → List Literal} {packets : List (Filter × Tree)} {p : Filter × Tree}
  {v w : Node} {post : Bytes}

theorem mem_packetBook {t : Tree} {q : Bytes × List Stress.Tree} : q ∈ packetBook literals t ↔
    ∃ v ∈ t.root.nodes, v.isLeaf = false ∧ q = (v.info.name ++ t.post, v.body literals t.post) := by
  rw [packetBook, List.mem_flatMap]
  refine exists_congr fun v => and_congr_right fun _ => ?_
  cases v.isLeaf with
  | true => exact iff_of_false List.not_mem_nil fun h => Bool.noConfusion h.1
  | false => rw [if_neg Bool.false_ne_true, List.mem_singleton, and_iff_right rfl]

theorem map_fst_packetBook (t : Tree) : (packetBook literals t).map Prod.fst =
    ((t.root.nodes.filter fun v => !v.isLeaf).map fun v => v.info.name).map (· ++ t.post) := by
  rw [packetBook]
  induction t.root.nodes with
  | nil => rfl
  | cons v vs ih =>
      rw [List.flatMap_cons, List.map_append, ih, List.filter_cons]
      cases v.isLeaf <;> rfl

theorem Readable.packetName_eq (h : Readable literals p) :
    p.2.packetName = p.2.root.info.name ++ p.2.post := by
  obtain ⟨k, _, hpost, hname⟩ := h.post
  rw [hname, hpost, h.named]

/-- The names of two packets differ in the number. -/
theorem Readable.apart {p' : Filter × Tree} (h : Readable literals p) (h' : Readable literals p')
    (hne : p.2.number ≠ p'.2.number) :
    List.Disjoint ((packetBook literals p.2).map Prod.fst)
      ((packetBook literals p'.2).map Prod.fst) := by
  intro n hn hn'
  obtain ⟨k, hk, hpost, _⟩ := h.post
  obtain ⟨k', hk', hpost', _⟩ := h'.post
  rw [map_fst_packetBook, hpost] at hn
  rw [map_fst_packetBook, hpost'] at hn'
  obtain ⟨s, _, rfl⟩ := List.mem_map.mp hn
  obtain ⟨s', _, heq⟩ := List.mem_map.mp hn'
  have hid : k' = k := AnomalyInjector.lhs_injective (c := .node .composite k' s' [])
    (d := .node .composite k s []) heq
  exact hne (by rw [hk, hk', hid])

theorem captureBook_nodup (h : ∀ p ∈ packets, Readable literals p)
    (hnumbers : (packets.map fun p => p.2.number).Nodup) :
    ((captureBook literals packets).map Prod.fst).Nodup := by
  rw [captureBook, List.map_cons, List.map_flatMap, List.nodup_cons, List.nodup_flatMap]
  refine ⟨fun hroot => ?_, fun p hp => ?_, ?_⟩
  · obtain ⟨p, hp, hroot⟩ := List.mem_flatMap.mp hroot
    obtain ⟨k, _, hpost, _⟩ := (h p hp).post
    rw [map_fst_packetBook, hpost] at hroot
    obtain ⟨s, _, heq⟩ := List.mem_map.mp hroot
    have heq : s ++ 45 :: showNat k = ascii "root" := heq
    have hdash : (45 : UInt8) ∈ ascii "root" := heq ▸ List.mem_append_right s List.mem_cons_self
    exact absurd hdash (by decide)
  · rw [map_fst_packetBook]
    exact (h p hp).distinct.map fun _ _ => List.append_cancel_right
  · rw [List.Nodup, List.pairwise_map] at hnumbers
    exact hnumbers.imp_of_mem fun hp hp' hne => (h _ hp).apart (h _ hp') hne

/-- An inner node of a packet has its rule in the book. -/
theorem mem_captureBook (hp : p ∈ packets) (hv : v ∈ p.2.root.nodes) (hleaf : v.isLeaf = false) :
    (v.info.name ++ p.2.post, v.body literals p.2.post) ∈ captureBook literals packets :=
  List.mem_cons_of_mem _
    (List.mem_flatMap.mpr ⟨p, hp, mem_packetBook.mpr ⟨v, hv, hleaf, rfl⟩⟩)

theorem refers_node (hnodup : ((captureBook literals packets).map Prod.fst).Nodup)
    (hp : p ∈ packets) (hv : v ∈ p.2.root.nodes) (hleaf : v.isLeaf = false) {m : Bytes} :
    Refers (captureBook literals packets).values (v.info.name ++ p.2.post) m ↔
      ∃ c ∈ v.children, c.isLeaf = false ∧ m = c.info.name ++ p.2.post := by
  rw [Book.refers_iff hnodup (mem_captureBook hp hv hleaf), mem_references_body]

theorem refers_root (hnodup : ((captureBook literals packets).map Prod.fst).Nodup) {m : Bytes} :
    Refers (captureBook literals packets).values (ascii "root") m ↔
      ∃ p ∈ packets, m = p.2.packetName := by
  rw [Book.refers_iff hnodup List.mem_cons_self, List.flatMap_map, List.mem_flatMap]
  refine exists_congr fun p => and_congr_right fun _ => ?_
  rw [Stress.Tree.references, List.mem_singleton]

theorem acc_node (hnodup : ((captureBook literals packets).map Prod.fst).Nodup) (hp : p ∈ packets)
    (hv : v ∈ p.2.root.nodes) (hleaf : v.isLeaf = false) :
    Acc (flip (Refers (captureBook literals packets).values)) (v.info.name ++ p.2.post) := by
  induction v using Node.induction with
  | h v ih =>
      refine .intro _ fun m hm => ?_
      obtain ⟨c, hc, hinner, rfl⟩ := (refers_node hnodup hp hv hleaf).mp hm
      exact ih c hc (Node.nodes_trans hv (Node.child_mem_nodes hc)) hinner

theorem leads_node (hnodup : ((captureBook literals packets).map Prod.fst).Nodup) (hp : p ∈ packets)
    {n : Bytes} (hv : v ∈ p.2.root.nodes) (hw : w ∈ v.nodes) (hleaf : w.isLeaf = false)
    (hn : ReflTransGen (Refers (captureBook literals packets).values) n (v.info.name ++ p.2.post)) :
    ReflTransGen (Refers (captureBook literals packets).values) n (w.info.name ++ p.2.post) := by
  induction v using Node.induction with
  | h v ih =>
      rw [Node.nodes_eq, List.mem_cons] at hw
      obtain rfl | hw := hw
      · exact hn
      · obtain ⟨c, hc, hw⟩ := List.mem_flatMap.mp hw
        have hinner : v.isLeaf = false := List.isEmpty_eq_false_iff.mpr (List.ne_nil_of_mem hc)
        cases hchild : c.isLeaf with
        | true =>
            rw [Node.nodes_eq, List.isEmpty_iff.mp hchild, List.flatMap_nil,
              List.mem_singleton] at hw
            rw [hw, hchild] at hleaf
            cases hleaf
        | false =>
            refine ih c hc (Node.nodes_trans hv (Node.child_mem_nodes hc)) hw (hn.tail ?_)
            exact (refers_node hnodup hp hv hinner).mpr ⟨c, hc, hchild, rfl⟩

/-- The rules of a capture lead from the root to all of them. -/
theorem captureBook_complete (h : ∀ p ∈ packets, Readable literals p)
    (hnumbers : (packets.map fun p => p.2.number).Nodup) :
    (captureBook literals packets).Complete (ascii "root") := by
  have hnodup := captureBook_nodup h hnumbers
  have hmem : ∀ q ∈ captureBook literals packets,
      q = (ascii "root", packets.map fun p => .node .composite p.2.packetName []) ∨
        ∃ p ∈ packets, ∃ v ∈ p.2.root.nodes, v.isLeaf = false ∧
          q = (v.info.name ++ p.2.post, v.body literals p.2.post) := by
    intro q hq
    obtain rfl | hq := List.mem_cons.mp hq
    · exact .inl rfl
    · obtain ⟨p, hp, hq⟩ := List.mem_flatMap.mp hq
      exact .inr ⟨p, hp, mem_packetBook.mp hq⟩
  have hroot : ∀ p ∈ packets, Refers (captureBook literals packets).values (ascii "root")
      (p.2.root.info.name ++ p.2.post) := fun p hp =>
    (refers_root hnodup).mpr ⟨p, hp, (h p hp).packetName_eq.symm⟩
  refine ⟨hnodup, fun q hq => ?_, fun q hq m hm => ?_, fun m hm => ?_⟩
  · obtain rfl | ⟨p, hp, v, hv, hleaf, rfl⟩ := hmem q hq
    · refine .intro _ fun m hm => ?_
      obtain ⟨p, hp, rfl⟩ := (refers_root hnodup).mp hm
      rw [(h p hp).packetName_eq]
      exact acc_node hnodup hp p.2.root.mem_nodes_self (h p hp).inner
    · exact acc_node hnodup hp hv hleaf
  · have hrefers := (Book.refers_iff hnodup hq).mpr hm
    obtain rfl | ⟨p, hp, v, hv, hleaf, rfl⟩ := hmem q hq
    · obtain ⟨p, hp, rfl⟩ := (refers_root hnodup).mp hrefers
      rw [(h p hp).packetName_eq]
      exact List.mem_map.mpr
        ⟨_, mem_captureBook hp p.2.root.mem_nodes_self (h p hp).inner, rfl⟩
    · obtain ⟨c, hc, hinner, rfl⟩ := (refers_node hnodup hp hv hleaf).mp hrefers
      exact List.mem_map.mpr ⟨_, mem_captureBook hp
        (Node.nodes_trans hv (Node.child_mem_nodes hc)) hinner, rfl⟩
  · obtain ⟨q, hq, rfl⟩ := List.mem_map.mp hm
    obtain rfl | ⟨p, hp, v, hv, hleaf, rfl⟩ := hmem q hq
    · exact .refl
    · exact leads_node hnodup hp p.2.root.mem_nodes_self hv hleaf (.single (hroot p hp))

/-! ## The tree of a capture -/

theorem forall₂_flatMap {α β γ : Type} {R : β → γ → Prop} {l : List α} {f : α → List β}
    {g : α → List γ} (h : ∀ a ∈ l, List.Forall₂ R (f a) (g a)) :
    List.Forall₂ R (l.flatMap f) (l.flatMap g) := by
  induction l with
  | nil => exact .nil
  | cons a l ih =>
      rw [List.forall_mem_cons] at h
      rw [List.flatMap_cons, List.flatMap_cons]
      exact List.rel_append h.1 (ih h.2)

theorem expands_command (values : Values) (c : Option (Lexeme command)) :
    List.Forall₂ (Expands values) (commandNode c) (commandNode c) := by
  cases c with
  | none => exact .nil
  | some c => exact .cons (.leaf _ _) .nil

/-- The reference to a node is expanded to the node. -/
theorem expands_node (hnodup : ((captureBook literals packets).map Prod.fst).Nodup)
    (hp : p ∈ packets) (hv : v ∈ p.2.root.nodes) :
    List.Forall₂ (Expands (captureBook literals packets).values)
      (v.reference literals p.2.post) (v.trees literals p.2.post) := by
  induction v using Node.induction with
  | h v ih =>
      cases hleaf : v.isLeaf with
      | true =>
          rw [Node.reference, if_pos hleaf, Node.trees_leaf hleaf, List.forall₂_same]
          intro t ht
          obtain ⟨l, _, rfl⟩ := List.mem_map.mp ht
          exact .leaf _ _
      | false =>
          rw [Node.reference, if_neg (by rw [hleaf]; exact Bool.false_ne_true),
            Node.trees_inner hleaf]
          refine .cons (.reference (Book.lookup hnodup (mem_captureBook hp hv hleaf)) ?_) .nil
          exact List.rel_append (expands_command _ _) (forall₂_flatMap fun c hc =>
            ih c hc (Node.nodes_trans hv (Node.child_mem_nodes hc)))

theorem expands_capture (h : ∀ p ∈ packets, Readable literals p)
    (hnumbers : (packets.map fun p => p.2.number).Nodup) :
    Expands (captureBook literals packets).values (.node .composite (ascii "root") [])
      (captureTree literals packets) := by
  have hnodup := captureBook_nodup h hnumbers
  refine .reference (Book.lookup hnodup List.mem_cons_self) ?_
  have hone : (packets.map fun p => Stress.Tree.node .composite p.2.packetName []) =
      packets.flatMap fun p => p.2.root.reference literals p.2.post := by
    rw [← List.flatMap_singleton' (packets.map _), List.flatMap_map]
    refine List.flatMap_congr fun p hp => ?_
    rw [Node.reference, if_neg (by rw [(h p hp).inner]; exact Bool.false_ne_true),
      (h p hp).packetName_eq]
  rw [Tree.sons, hone]
  exact forall₂_flatMap fun p hp => expands_node hnodup hp p.2.root.mem_nodes_self

/-- The tester reads a saved capture as the tree that the dissector had. -/
theorem read_capture (hne : packets ≠ []) (h : ∀ p ∈ packets, Readable literals p)
    (hnumbers : (packets.map fun p => p.2.number).Nodup) :
    ReadExactly (savePacketsAsAbnf packets) (captureTree literals packets) :=
  (prints_capture hne h).read (captureBook_complete h hnumbers) (expands_capture h hnumbers)

end Capture

/-! ## The values of a capture -/

/-- The name of a leaf, and the value of the field it was made from: a text of
`getABNFString`, or the dump of the value behind `%x`. -/
def ValueText (n b : Bytes) : Prop :=
  b ≠ [] ∧ (getABNFString (hexDump b) = some n ∨ n = ascii "%x" ++ hexDump b)

section Values

variable {n b : Bytes}

/-- The literals of a value in a row.  In front of a string no blank is needed, since it
brings its own. -/
structure InRow (b : Bytes) (ls : List Literal) : Prop where
  row : Row (32 :: abnfText b) (ls.map Literal.token)
  text : (∀ c ∈ b.head?, isText c = true) → Row (abnfText b) (ls.map Literal.token)
  sends : ∀ id, ls.flatMap (Literal.sends id) = b

theorem InRow.string {c : UInt8} {ls : List Literal} (hc : isText c = true)
    (h : InRow ((c :: b).dropWhile isText) ls) : ∃ l, InRow (c :: b) (l :: ls) := by
  have htext : ∀ d ∈ (c :: b).takeWhile isText, isText d = true :=
    fun d hd => List.mem_takeWhile_imp hd
  let l := Literal.charval (quoted _ htext)
  have hrow : Row (abnfText (c :: b)) ((l :: ls).map Literal.token) := by
    rw [abnfText_string hc]
    exact Row.single l.word h.row
  refine ⟨l, hrow.blank, fun _ => hrow, fun id => ?_⟩
  rw [List.flatMap_cons, h.sends, sends_quoted htext, List.takeWhile_append_dropWhile]

theorem InRow.hex {c : UInt8} {ls : List Literal} (hc : isText c = false)
    (h : InRow ((c :: b).dropWhile fun c => !isText c) ls) : ∃ l, InRow (c :: b) (l :: ls) := by
  have hne : hexDump ((c :: b).takeWhile fun c => !isText c) ≠ [] := by
    rw [List.takeWhile_cons, if_pos ((Bool.not_eq_true' _).mpr hc)]
    exact List.cons_ne_nil _ _
  have hrest : Row (abnfText ((c :: b).dropWhile fun c => !isText c)) (ls.map Literal.token) :=
    h.text fun d hd => by
      have hhead := List.head?_dropWhile_not (fun c => !isText c) (c :: b)
      rw [hd] at hhead
      exact (Bool.not_eq_false' _).mp hhead
  let l := Literal.hexval (hexToken _ hne isHexDigit_of_mem_hexDump)
  refine ⟨l, ?_, fun htext => ?_, fun id => ?_⟩
  · rw [abnfText_hex hc]
    exact Row.single l.word hrest
  · rw [htext c rfl] at hc
    cases hc
  · rw [List.flatMap_cons, h.sends, sends_hexToken hne, List.takeWhile_append_dropWhile]

theorem exists_inRow (b : Bytes) : ∃ ls, InRow b ls := by
  induction b using runs_induction with
  | nil => exact ⟨[], .blanks 1, fun _ => .blanks 0, fun _ => List.flatMap_nil⟩
  | string c b hc ih =>
      obtain ⟨ls, hls⟩ := ih
      obtain ⟨l, hl⟩ := hls.string hc
      exact ⟨l :: ls, hl⟩
  | hex c b hc ih =>
      obtain ⟨ls, hls⟩ := ih
      obtain ⟨l, hl⟩ := hls.hex hc
      exact ⟨l :: ls, hl⟩

/-- The name of a leaf is a row of literals that send the value. -/
theorem ValueText.exists_row (h : ValueText n b) : ∃ ls : List Literal, ls ≠ [] ∧
    Row (32 :: n) (ls.map Literal.token) ∧ ∀ id, ls.flatMap (Literal.sends id) = b := by
  obtain ⟨hb, h⟩ := h
  have hdump : hexDump b ≠ [] := by
    obtain ⟨c, b, rfl⟩ := List.exists_cons_of_ne_nil hb
    exact List.cons_ne_nil _ _
  obtain hn | rfl := h
  · obtain ⟨ls, hls⟩ := exists_inRow b
    have hn : abnfText b = n := Option.some.inj ((if_neg hdump).symm.trans hn)
    refine ⟨ls, ?_, hn ▸ hls.row, hls.sends⟩
    rintro rfl
    exact hb (hls.sends 0).symm
  · let l := Literal.hexval (hexToken _ hdump isHexDigit_of_mem_hexDump)
    refine ⟨[l], List.cons_ne_nil _ _, ?_, fun id => ?_⟩
    · have hrow := Row.single l.word (.blanks 0)
      rwa [List.replicate_zero, List.append_nil] at hrow
    · rw [List.flatMap_singleton, sends_hexToken hdump]

theorem exists_literals : ∃ literals : Bytes → List Literal, ∀ n b, ValueText n b →
    literals n ≠ [] ∧ Row (32 :: n) ((literals n).map Literal.token) ∧
      ∀ id, (literals n).flatMap (Literal.sends id) = b := by
  have hall : ∀ n, ∃ ls : List Literal, ∀ b, ValueText n b →
      ls ≠ [] ∧ Row (32 :: n) (ls.map Literal.token) ∧
        ∀ id, ls.flatMap (Literal.sends id) = b := by
    intro n
    by_cases hvalue : ∃ b, ValueText n b
    · obtain ⟨b, hb⟩ := hvalue
      obtain ⟨ls, hne, hrow, _⟩ := hb.exists_row
      refine ⟨ls, fun b' hb' => ⟨hne, hrow, fun id => ?_⟩⟩
      obtain ⟨ls', _, hrow', hsends'⟩ := hb'.exists_row
      have hls : ls' = ls := List.map_injective_iff.mpr (fun _ _ => Literal.token_injective)
        (hrow'.unique hrow)
      rw [← hls, hsends' id]
    · exact ⟨[], fun b hb => absurd ⟨b, hb⟩ hvalue⟩
  choose literals hliterals using hall
  exact ⟨literals, hliterals⟩

end Values

/-- A packet of a capture that is printed as a whole: its inner nodes have legal and distinct
names, and its leaves have values. -/
structure Captured (p : Filter × Tree) : Prop where
  named : p.2.root.info.name = ascii "packet"
  inner : p.2.root.isLeaf = false
  number : 0 ≤ p.2.number
  shown : ∀ v ∈ p.2.root.nodes, p.1 v = true ∧ v.info.hidden = false
  names : ∀ v ∈ p.2.root.nodes, v.isLeaf = false → v.info.name ∈ rulename.matches'
  values : ∀ v ∈ p.2.root.nodes, v.isLeaf = true → ∃ b, ValueText v.info.name b
  distinct : ((p.2.root.nodes.filter fun v => !v.isLeaf).map fun v => v.info.name).Nodup

/-- The tester accepts a saved capture and builds the tree that the dissector had, with
leaves that send the values of the fields. -/
theorem capture_read {packets : List (Filter × Tree)} (hne : packets ≠ [])
    (h : ∀ p ∈ packets, Captured p) (hnumbers : (packets.map fun p => p.2.number).Nodup) :
    ∃ literals : Bytes → List Literal,
      (∀ n b, ValueText n b → ∀ id, (literals n).flatMap (Literal.sends id) = b) ∧
        ReadExactly (savePacketsAsAbnf packets) (captureTree literals packets) := by
  obtain ⟨literals, hliterals⟩ := exists_literals
  refine ⟨literals, fun n b hb => (hliterals n b hb).2.2,
    read_capture hne (fun p hp => ?_) hnumbers⟩
  have hp := h p hp
  refine ⟨hp.named, hp.inner, hp.number, hp.shown, fun v hv => ⟨hp.names v hv, fun hleaf => ?_⟩,
    hp.distinct⟩
  obtain ⟨b, hb⟩ := hp.values v hv hleaf
  exact ⟨(hliterals _ _ hb).1, (hliterals _ _ hb).2.1⟩

/-- A packet with a line of text. -/
def getPacket : Filter × Tree where
  fst _ := true
  snd := {
    root := .mk { name := ascii "packet", protocol := ascii "root" } [
      .mk { name := ascii "http", protocol := ascii "http" } [
        .mk { name := ascii " \"GET\" ", protocol := ascii "http" } [],
        .mk { name := ascii "%x0d0a", protocol := ascii "http" } []]]
    number := 1
    isRoot := rfl }

/-- The names of the inner nodes are legal, and the leaves send a word and the end of
a line. -/
theorem captured_getPacket : Captured getPacket where
  named := rfl
  inner := rfl
  number := by decide
  shown := List.forall_mem_cons.mpr ⟨⟨rfl, rfl⟩, List.forall_mem_cons.mpr ⟨⟨rfl, rfl⟩,
    List.forall_mem_cons.mpr ⟨⟨rfl, rfl⟩, List.forall_mem_singleton.mpr ⟨rfl, rfl⟩⟩⟩⟩
  names := List.forall_mem_cons.mpr
    ⟨fun _ => mem_rulename.mpr ⟨112, ascii "acket", rfl, List.all_eq_true.mp rfl, rfl⟩,
      List.forall_mem_cons.mpr
        ⟨fun _ => mem_rulename.mpr ⟨104, ascii "ttp", rfl, List.all_eq_true.mp rfl, rfl⟩,
          List.forall_mem_cons.mpr ⟨fun h => absurd h (by decide),
            List.forall_mem_singleton.mpr fun h => absurd h (by decide)⟩⟩⟩
  values := List.forall_mem_cons.mpr ⟨fun h => absurd h (by decide),
    List.forall_mem_cons.mpr ⟨fun h => absurd h (by decide),
      List.forall_mem_cons.mpr ⟨fun _ => ⟨ascii "GET", by decide, .inl (by decide)⟩,
        List.forall_mem_singleton.mpr fun _ => ⟨[13, 10], by decide, .inr (by decide)⟩⟩⟩⟩
  distinct := by decide

theorem capture_read_getPacket : [getPacket] ≠ [] ∧ (∀ p ∈ [getPacket], Captured p) ∧
    ([getPacket].map fun p => p.2.number).Nodup ∧ ∃ literals : Bytes → List Literal,
      (∀ n b, ValueText n b → ∀ id, (literals n).flatMap (Literal.sends id) = b) ∧
        ReadExactly (savePacketsAsAbnf [getPacket]) (captureTree literals [getPacket]) :=
  have hall : ∀ p ∈ [getPacket], Captured p := List.forall_mem_singleton.mpr captured_getPacket
  ⟨List.cons_ne_nil _ _, hall, by decide, capture_read (List.cons_ne_nil _ _) hall (by decide)⟩

end Dissector

end Stress

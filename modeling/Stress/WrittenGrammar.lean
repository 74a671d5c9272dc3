import Stress.AnomalyInjector
import Stress.Baseline
import Stress.FieldName
import Stress.GrammarText

/-!
# The grammar that the injector writes

`AnomalyInjector::write` puts the tree into a file, one rule for each inner node, under the
name of the node with its id behind a dash.

A node of the tree has the name of a rule or of an injected alternation, or the name that
the parser gives to a group, an option, an alternation or a repetition.  With a name of the
second kind the line of the node begins with a bracket, a slash, a star or a digit, and no
rule begins so.  `written_accepted_iff` says that the parser accepts the file exactly when
the tree has none of these.
-/

namespace Stress

open Relation RegularExpression

/-- A tree of a grammar in which leaves may have become alternations with anomalies. -/
inductive Tree.Printable : Tree → Prop where
  | literal (l : Literal) : Printable (.leaf l.kind l.name)
  | rule (t : Lexeme rulename) (c : Option (Lexeme command)) {sons : List Tree} (hne : sons ≠ [])
      (hsons : ∀ u ∈ sons, Printable u) :
      Printable (.node .composite t.text (commandNode c ++ sons))
  | injected (t : Lexeme rulename) {sons : List Tree} (hne : sons ≠ [])
      (hsons : ∀ u ∈ sons, Printable u) : Printable (.node .orComposite t.text sons)
  | group {name : Bytes} {sons : List Tree} (c : Option (Lexeme command)) (hname : IsForeign name)
      (hne : commandNode c ++ sons ≠ []) (hsons : ∀ u ∈ sons, Printable u) :
      Printable (.node .composite name (commandNode c ++ sons))
  | plain {kind : NodeKind} {name : Bytes} {sons : List Tree} (hkind : kind ≠ .composite)
      (hname : IsForeign name) (hne : sons ≠ []) (hsons : ∀ u ∈ sons, Printable u) :
      Printable (.node kind name sons)

/-- The parser ends with its verdict true and has reported no error. -/
def Accepted (s : Bytes) : Prop :=
  ∃ p rules, ABNFParser.Parse s (.done p rules) ∧ p.parsingResult = true ∧ p.NoErrors

/-! ## Rules over lists of elements -/

/-- `e` and the elements `es` behind it, as one concatenation. -/
def Concatenation.ofElements (e : AbnfElement) (es : List AbnfElement) : Concatenation :=
  es.foldl (fun c e => .append c (.element e)) (.repetition (.element e))

/-- `e` and the elements `es` behind it, each as an alternative of its own. -/
def Alternation.ofElements (e : AbnfElement) (es : List AbnfElement) : Alternation :=
  es.foldl (fun a e => .alternative a (.repetition (.element e)))
    (.concatenation (.repetition (.element e)))

section Elements

variable (e : AbnfElement) (es : List AbnfElement)

theorem Concatenation.ofElements_tokens :
    (ofElements e es).tokens = e.tokens ++ es.flatMap AbnfElement.tokens := by
  induction es using List.reverseRecOn with
  | nil =>
      rw [ofElements, List.foldl_nil, Concatenation.tokens, Repetition.tokens]
      exact (List.append_nil _).symm
  | append_singleton es d ih =>
      rw [ofElements, List.foldl_append, ← ofElements, List.foldl_cons, List.foldl_nil,
        Concatenation.tokens, ih, Repetition.tokens, List.flatMap_append, List.flatMap_singleton,
        List.append_assoc]

theorem Concatenation.ofElements_nodes :
    (ofElements e es).nodes = (e :: es).flatMap AbnfElement.nodes := by
  induction es using List.reverseRecOn with
  | nil =>
      rw [ofElements, List.foldl_nil, Concatenation.nodes, Repetition.nodes, List.flatMap_singleton]
  | append_singleton es d ih =>
      rw [ofElements, List.foldl_append, ← ofElements, List.foldl_cons, List.foldl_nil,
        Concatenation.nodes, ih, Repetition.nodes, ← List.cons_append, List.flatMap_append,
        List.flatMap_singleton]

theorem Alternation.ofElements_tokens :
    (ofElements e es).tokens = e.tokens ++ es.flatMap fun d => slash :: d.tokens := by
  induction es using List.reverseRecOn with
  | nil =>
      rw [ofElements, List.foldl_nil, Alternation.tokens, Concatenation.tokens, Repetition.tokens]
      exact (List.append_nil _).symm
  | append_singleton es d ih =>
      rw [ofElements, List.foldl_append, ← ofElements, List.foldl_cons, List.foldl_nil,
        Alternation.tokens, ih, Concatenation.tokens, Repetition.tokens, List.flatMap_append,
        List.flatMap_singleton, List.append_assoc]

theorem Alternation.ofElements_allNodes :
    (ofElements e es).allNodes = (e :: es).flatMap AbnfElement.nodes := by
  induction es using List.reverseRecOn with
  | nil =>
      rw [ofElements, List.foldl_nil, allNodes, concatenations, List.flatMap_singleton,
        Concatenation.nodes, Repetition.nodes, List.flatMap_singleton]
  | append_singleton es d ih =>
      rw [ofElements, List.foldl_append, ← ofElements, List.foldl_cons, List.foldl_nil, allNodes,
        concatenations, List.flatMap_append, ← allNodes, ih, List.flatMap_singleton,
        Concatenation.nodes, Repetition.nodes, ← List.cons_append, List.flatMap_append,
        List.flatMap_singleton]

/-- Several elements become the sons of one alternation. -/
theorem Alternation.ofElements_nodes : (ofElements e es).nodes =
    if es = [] then e.nodes
    else [.node .orComposite (ascii "/") ((e :: es).flatMap AbnfElement.nodes)] := by
  obtain rfl | ⟨front, d, rfl⟩ := List.eq_nil_or_concat es
  · rw [if_pos rfl, ofElements, List.foldl_nil, nodes, Concatenation.nodes, Repetition.nodes]
  · have hlast : ofElements e (front.concat d) =
        .alternative (ofElements e front) (.repetition (.element d)) := by
      rw [ofElements, List.concat_eq_append, List.foldl_append]
      rfl
    rw [if_neg (by simp), ← ofElements_allNodes, hlast, nodes_alternative]

end Elements

/-- A leaf with quotes around its text. -/
theorem Literal.name_quoted (text : Bytes) (h : ∀ c ∈ text, isText c = true) :
    (Literal.charval (quoted text h)).name = [92, 34] ++ text ++ [92, 34] := by
  have htext : ((34 :: text ++ [34] : Bytes).drop 1).take
      ((34 :: text ++ [34] : Bytes).length - 2) = text := by
    rw [List.cons_append, List.drop_succ_cons, List.drop_zero, List.length_cons,
      List.length_append]
    exact List.take_left
  rw [Literal.name, quoted, htext]
  rfl

/-! ## Lines of words -/

/-- Tokens, each behind a blank. -/
def spaced (ts : List Token) : Bytes := ts.flatMap fun t => 32 :: t.text

section Words

variable {t : Token} {us ts : List Token} {rest : Bytes}

theorem spaced_cons (t : Token) (us : List Token) :
    spaced (t :: us) = 32 :: t.text ++ spaced us := by rw [spaced, List.flatMap_cons]; rfl

theorem row_spaced (hus : ∀ u ∈ us, u.Word) : Row (spaced us) us := by
  induction us with
  | nil => exact .blanks 0
  | cons u us ih =>
      rw [List.forall_mem_cons] at hus
      rw [spaced_cons]
      exact .single hus.1 (ih hus.2)

/-- A line of words is scanned word for word. -/
theorem scans_words (ht : t.Word) (hus : ∀ u ∈ us, u.Word) (h : Scans rest ts) :
    Scans (t.text ++ spaced us ++ 10 :: rest) (t :: us ++ ⟨.crlf, [10]⟩ :: ts) := by
  rw [List.append_assoc]
  exact ht.scans ((row_spaced hus).stop rest) ((row_spaced hus).scans h)

end Words

/-! ## The text of a son -/

namespace AnomalyInjector

/-- What a son is read as. -/
def reference : Composite → Tree
  | .leaf kind _ name => .leaf kind name
  | .node kind id name sons => .node .composite (lhs (.node kind id name sons)) []

/-- The text of a son is one word, which is read as an element of its own. -/
structure Says (c : Composite) (e : AbnfElement) (t : Token) : Prop where
  tokens : e.tokens = [t]
  text : sonText c = some t.text
  word : t.Word
  nodes : e.nodes = [reference c]

theorem says_literal (l : Literal) (id : Nat) :
    Says (.leaf l.kind id l.name) (.literal l) l.token where
  tokens := by rw [AbnfElement.tokens]
  text := by
    cases l with
    | charval t =>
        obtain ⟨w, hw⟩ := t
        obtain ⟨text, htext, rfl⟩ := mem_charval.mp hw
        have hname := Literal.name_quoted text htext
        rw [quoted] at hname
        rw [hname, Literal.kind, sonText, getNodeName4File, trim_quoted]
        rfl
    | binval t => rfl
    | decval t => rfl
    | hexval t => rfl
  word := l.word
  nodes := by
    rw [AbnfElement.nodes]
    rfl

theorem says_rulename {kind : NodeKind} {id : Nat} {name : Bytes} {sons : List Composite}
    {t : Lexeme rulename} (ht : t.text = lhs (.node kind id name sons)) :
    Says (.node kind id name sons) (.rulename t) ⟨.rulename, t.text⟩ where
  tokens := by rw [AbnfElement.tokens]
  text := by rw [sonText, ht]
  word := by
    refine Token.word_rulename ?_
    rw [ht, lhs]
    exact List.mem_append_right _ List.mem_cons_self
  nodes := by rw [AbnfElement.nodes, reference, ht]

theorem exists_lhs {n : Bytes} (t : Lexeme rulename) (id : Nat) (ht : t.text = n) :
    ∃ u : Lexeme rulename, u.text = n ++ 45 :: showNat id := by
  obtain ⟨c, s, hc, hs, htext⟩ := mem_rulename.mp t.mem
  refine ⟨⟨_, mem_rulename.mpr ⟨c, s ++ 45 :: showNat id, hc, ?_, ?_⟩⟩, rfl⟩
  · refine List.forall_mem_append.mpr ⟨hs, List.forall_mem_cons.mpr ⟨rfl, fun d hd => ?_⟩⟩
    rw [isRuleChar, isDigit_of_mem_showNat hd, Bool.or_true, Bool.true_or]
  · rw [← ht, htext, List.cons_append]

/-- The name of a node that is named as a rule can stand in a file, with the id of the
node. -/
theorem exists_lexeme {kind : NodeKind} {id : Nat} {name : Bytes} {sons : List Composite}
    (h : (Composite.node kind id name sons).shape.Printable) (hname : IsName name) :
    ∃ t : Lexeme rulename, t.text = lhs (.node kind id name sons) := by
  rw [Composite.shape] at h
  generalize Composite.shapes sons = shapes at h
  cases h with
  | rule t => exact exists_lhs t id rfl
  | injected t => exact exists_lhs t id rfl
  | group _ hforeign => exact absurd hname hforeign.not_isName
  | plain _ hforeign => exact absurd hname hforeign.not_isName

theorem exists_says {c : Composite} (h : c.shape.Printable)
    (hname : c.isLeaf = false → IsName c.name) : ∃ e t, Says c e t := by
  cases c with
  | leaf kind id name =>
      rw [Composite.shape] at h
      cases h with
      | literal l => exact ⟨_, _, says_literal l id⟩
  | node kind id name sons =>
      obtain ⟨t, ht⟩ := exists_lexeme h (hname rfl)
      exact ⟨_, _, says_rulename ht⟩

/-! ## The line of a node -/

section Lines

variable {cs : List Composite} {ps : List (AbnfElement × Token)}

theorem exists_sons_say (h : ∀ c ∈ cs, c.shape.Printable)
    (hname : ∀ c ∈ cs, c.isLeaf = false → IsName c.name) :
    ∃ ps : List (AbnfElement × Token), List.Forall₂ (fun c p => Says c p.1 p.2) cs ps := by
  refine exists_forall₂ fun c hc => ?_
  obtain ⟨e, t, hsay⟩ := exists_says (h c hc) (hname c hc)
  exact ⟨(e, t), hsay⟩

theorem sons_words (h : List.Forall₂ (fun c (p : AbnfElement × Token) => Says c p.1 p.2) cs ps) :
    ∀ t ∈ ps.map Prod.snd, t.Word := by
  induction h with
  | nil => exact nofun
  | cons hsay _ ih => exact List.forall_mem_cons.mpr ⟨hsay.word, ih⟩

theorem sons_tokens (h : List.Forall₂ (fun c (p : AbnfElement × Token) => Says c p.1 p.2) cs ps) :
    (ps.map Prod.fst).flatMap AbnfElement.tokens = ps.map Prod.snd := by
  induction h with
  | nil => rfl
  | cons hsay _ ih => rw [List.map_cons, List.flatMap_cons, hsay.tokens, ih]; rfl

theorem sons_nodes (h : List.Forall₂ (fun c (p : AbnfElement × Token) => Says c p.1 p.2) cs ps) :
    (ps.map Prod.fst).flatMap AbnfElement.nodes = cs.map reference := by
  induction h with
  | nil => rfl
  | cons hsay _ ih => rw [List.map_cons, List.flatMap_cons, hsay.nodes, ih]; rfl

theorem sonTexts_blank
    (h : List.Forall₂ (fun c (p : AbnfElement × Token) => Says c p.1 p.2) cs ps) :
    sonTexts (ascii " ") cs = some (spaced (ps.map Prod.snd)) := by
  induction h with
  | nil => rfl
  | cons hsay _ ih =>
      rw [sonTexts, hsay.text, ih]
      rfl

/-- Tokens, each behind a slash. -/
def slashed (ts : List Token) : List Token := ts.flatMap fun t => [slash, t]

theorem sonTexts_slash
    (h : List.Forall₂ (fun c (p : AbnfElement × Token) => Says c p.1 p.2) cs ps) :
    sonTexts (ascii " / ") cs = some (spaced (slashed (ps.map Prod.snd))) := by
  induction h with
  | nil => rfl
  | cons hsay _ ih =>
      rw [sonTexts, hsay.text, ih]
      rfl

theorem sons_slashed
    (h : List.Forall₂ (fun c (p : AbnfElement × Token) => Says c p.1 p.2) cs ps) :
    (ps.map Prod.fst).flatMap (fun e => slash :: e.tokens) = slashed (ps.map Prod.snd) := by
  induction h with
  | nil => rfl
  | cons hsay _ ih => rw [List.map_cons, List.flatMap_cons, hsay.tokens, ih]; rfl

/-- What the line of a node defines it as. -/
def body (c : Composite) : List Tree :=
  if c.isOr ∧ 1 < c.sons.length then
    [.node .orComposite (ascii "/") (c.sons.map reference)]
  else c.sons.map reference

/-- The line of a node is read as a rule. -/
structure Defines (c : Composite) (r : Rule) : Prop where
  name : r.name = lhs c
  run : ∀ values, r.run values = .ok (addValue (.node .composite (lhs c) (body c)) values)
  line : ∃ t us, r.tokens = t :: us ∧ line c = some (t.text ++ spaced us ++ [10]) ∧
    t.Word ∧ ∀ u ∈ us, u.Word

variable {kind : NodeKind} {id : Nat} {name : Bytes} {sons : List Composite} {t : Lexeme rulename}

theorem Defines.of_line (ht : t.text = lhs (.node kind id name sons)) {r : Rule} {us : List Token}
    (hname : r.name = t.text)
    (hrun : ∀ values, r.run values = .ok (addValue (.node .composite t.text
      (body (.node kind id name sons))) values))
    (htokens : r.tokens = ⟨.rulename, t.text⟩ :: ⟨.equal, ascii "="⟩ :: us)
    (hline : AnomalyInjector.line (.node kind id name sons) =
      some (lhs (.node kind id name sons) ++ ascii " =" ++ spaced us ++ [10]))
    (hus : ∀ u ∈ us, u.Word) : Defines (.node kind id name sons) r where
  name := hname.trans ht
  run values := by rw [hrun, ht]
  line := by
    refine ⟨_, _, htokens, ?_, (says_rulename ht).word, List.forall_mem_cons.mpr
      ⟨Token.word_equal, hus⟩⟩
    rw [hline, ht, spaced_cons]
    simp only [List.append_assoc]
    rfl

theorem line_eq {d : Composite} {ds : List Composite} {first : Token} {us : List Token}
    (hfirst : sonText d = some first.text)
    (hrest : sonTexts (if (Composite.node kind id name (d :: ds)).isOr then ascii " / "
      else ascii " ") ds = some (spaced us)) :
    line (.node kind id name (d :: ds)) =
      some (lhs (.node kind id name (d :: ds)) ++ ascii " =" ++ spaced (first :: us) ++ [10]) := by
  have hseparator : ascii " = " = ascii " =" ++ [32] := rfl
  rw [line, Composite.sons]
  simp only
  rw [hfirst, hrest, spaced_cons, hseparator]
  simp

theorem exists_line_concatenation {d : Composite} {ds : List Composite}
    (h : ∀ c ∈ d :: ds, c.shape.Printable)
    (hname : ∀ c ∈ d :: ds, c.isLeaf = false → IsName c.name) :
    ∃ (e : Concatenation) (us : List Token), e.tokens = us ∧
      e.nodes = (d :: ds).map reference ∧ sonTexts (ascii " ") (d :: ds) = some (spaced us) ∧
      ∃ first rest, us = first :: rest ∧ sonText d = some first.text ∧
        sonTexts (ascii " ") ds = some (spaced rest) ∧ ∀ u ∈ us, u.Word := by
  obtain ⟨ps, hps⟩ := exists_sons_say h hname
  have hblank := sonTexts_blank hps
  have htokens := sons_tokens hps
  have hnodes := sons_nodes hps
  have hwords := sons_words hps
  cases hps with
  | @cons _ p _ ps hsay hps =>
      refine ⟨.ofElements p.1 (ps.map Prod.fst), _, ?_, ?_, hblank, p.2, _, rfl, hsay.text,
        sonTexts_blank hps, hwords⟩
      · rw [Concatenation.ofElements_tokens]
        exact htokens
      · rw [Concatenation.ofElements_nodes]
        exact hnodes

theorem exists_defines_rule {d : Composite} {ds : List Composite}
    (ht : t.text = lhs (.node .composite id name (d :: ds)))
    (h : ∀ c ∈ d :: ds, c.shape.Printable)
    (hsons : ∀ c ∈ d :: ds, c.isLeaf = false → IsName c.name) :
    ∃ r, Defines (.node .composite id name (d :: ds)) r := by
  obtain ⟨e, us, htokens, hnodes, _, first, rest, rfl, hfirst, hrest, hwords⟩ :=
    exists_line_concatenation h hsons
  refine ⟨.defined t (.concatenation e), .of_line ht rfl (fun values => ?_) ?_
    (line_eq hfirst hrest) hwords⟩
  · rw [Rule.run, define_eq, Alternation.nodes, hnodes, body, if_neg fun hor => by cases hor.1]
    rfl
  · rw [Rule.tokens, Alternation.tokens, htokens]

theorem exists_defines_command {c : Lexeme command} {i : Nat} {d : Composite}
    {ds : List Composite}
    (ht : t.text = lhs (.node .composite id name (.leaf .commandComposite i c.text :: d :: ds)))
    (h : ∀ c ∈ d :: ds, c.shape.Printable)
    (hsons : ∀ c ∈ d :: ds, c.isLeaf = false → IsName c.name) :
    ∃ r, Defines (.node .composite id name (.leaf .commandComposite i c.text :: d :: ds)) r := by
  obtain ⟨e, us, htokens, hnodes, hblank, _, _, _, _, _, hwords⟩ :=
    exists_line_concatenation h hsons
  refine ⟨.definedWith t c (.concatenation e), .of_line ht rfl (fun values => ?_) ?_
    (line_eq (show sonText (.leaf .commandComposite i c.text) =
      some (Token.mk .command c.text).text from rfl) hblank)
    (List.forall_mem_cons.mpr ⟨Token.word_command c, hwords⟩)⟩
  · rw [Rule.run, define_eq, Alternation.nodes, hnodes, body, if_neg fun hor => by cases hor.1]
    rfl
  · rw [Rule.tokens, Alternation.tokens, htokens]

theorem exists_defines_injected (ht : t.text = lhs (.node .orComposite id name sons))
    (hne : sons ≠ []) (h : ∀ c ∈ sons, c.shape.Printable)
    (hsons : ∀ c ∈ sons, c.isLeaf = false → IsName c.name) :
    ∃ r, Defines (.node .orComposite id name sons) r := by
  obtain ⟨ps, hps⟩ := exists_sons_say h hsons
  have hnodes := sons_nodes hps
  have hwords := sons_words hps
  cases hps with
  | nil => exact absurd rfl hne
  | @cons d p ds ps hsay hps =>
      refine ⟨.defined t (.ofElements p.1 (ps.map Prod.fst)), .of_line ht rfl
        (fun values => ?_) ?_ (line_eq hsay.text (sonTexts_slash hps)) ?_⟩
      · rw [Rule.run, define_eq, Alternation.ofElements_nodes, body]
        cases hps with
        | nil =>
            rw [List.map_nil, if_pos rfl, hsay.nodes,
              if_neg fun hlen => absurd hlen.2 (Nat.lt_irrefl 1)]
            rfl
        | cons =>
            rw [List.map_cons, List.map_cons] at hnodes
            rw [List.map_cons, if_neg (List.cons_ne_nil _ _),
              if_pos ⟨rfl, Nat.succ_lt_succ (Nat.succ_pos _)⟩, hnodes]
            rfl
      · rw [Rule.tokens, Alternation.ofElements_tokens, hsay.tokens, sons_slashed hps]
        rfl
      · rw [List.map_cons, List.forall_mem_cons] at hwords
        refine List.forall_mem_cons.mpr ⟨hwords.1, fun u hu => ?_⟩
        obtain ⟨v, hv, hmem⟩ := List.mem_flatMap.mp hu
        rw [List.mem_pair] at hmem
        obtain rfl | rfl := hmem
        · exact Token.word_slash
        · exact hwords.2 _ hv

/-- The line of a node whose names can be read is read as its definition. -/
theorem exists_defines (h : (Composite.node kind id name sons).shape.Printable)
    (hname : IsName name) (hsons : ∀ c ∈ sons, c.isLeaf = false → IsName c.name) :
    ∃ r, Defines (.node kind id name sons) r := by
  obtain ⟨t, ht⟩ := exists_lexeme h hname
  rw [Composite.shape, Composite.shapes_eq] at h
  generalize hshapes : sons.map Composite.shape = shapes at h
  cases h with
  | group _ hforeign => exact absurd hname hforeign.not_isName
  | plain _ hforeign => exact absurd hname hforeign.not_isName
  | rule u c hne hprint =>
      cases c with
      | none =>
          rw [commandNode, Option.map_none, Option.toList_none, List.nil_append] at hshapes
          subst hshapes
          have hne' : sons ≠ [] := fun hnil => hne (by rw [hnil, List.map_nil])
          obtain ⟨d, ds, rfl⟩ := List.exists_cons_of_ne_nil hne'
          exact exists_defines_rule ht (List.forall_mem_map.mp hprint) hsons
      | some c =>
          obtain ⟨x, sons, rfl, hx, rfl⟩ := List.map_eq_cons_iff.mp hshapes
          have hne' : sons ≠ [] := fun hnil => hne (by rw [hnil, List.map_nil])
          obtain ⟨d, ds, rfl⟩ := List.exists_cons_of_ne_nil hne'
          cases x with
          | node => cases hx
          | leaf kind i n =>
              cases hx
              exact exists_defines_command ht (List.forall_mem_map.mp hprint)
                (List.forall_mem_cons.mp hsons).2
  | injected u hne hprint =>
      subst hshapes
      have hne' : sons ≠ [] := fun hnil => hne (by rw [hnil, List.map_nil])
      exact exists_defines_injected ht hne' (List.forall_mem_map.mp hprint) hsons

end Lines

/-! ## The map of the file -/

/-- The map of the file that these nodes have a line in. -/
def fileValues (cs : List Composite) : Values :=
  cs.map fun c => (lhs c, .node .composite (lhs c) (body c))

section FileValues

variable {cs : List Composite} {c d : Composite} {n m : Bytes} {node : Tree}

theorem lhs_injective (h : lhs c = lhs d) : c.id = d.id := by
  have hnumber : ∀ e : Composite,
      (lhs e).reverse.takeWhile (· != 45) = (showNat e.id).reverse := by
    intro e
    rw [lhs, List.reverse_append, List.reverse_cons, List.append_assoc,
      List.takeWhile_append_of_pos, List.singleton_append, List.takeWhile_cons_of_neg,
      List.append_nil]
    · rw [bne_self_eq_false]
      exact Bool.false_ne_true
    · intro x hx
      rw [bne_iff_ne]
      rintro rfl
      exact Bool.false_ne_true (isDigit_of_mem_showNat (List.mem_reverse.mp hx))
  have hreverse := hnumber c
  rw [h, hnumber d, List.reverse_inj] at hreverse
  exact showNat_injective hreverse.symm

/-- The lines of these nodes as a book. -/
def fileBook (cs : List Composite) : Book := cs.map fun c => (lhs c, body c)

theorem values_fileBook (cs : List Composite) : (fileBook cs).values = fileValues cs := by
  rw [fileBook, Book.values, List.map_map]
  rfl

theorem map_fst_fileBook (cs : List Composite) : (fileBook cs).map Prod.fst = cs.map lhs := by
  rw [fileBook, List.map_map]
  rfl

theorem lookup_fileValues (hnodup : (cs.map lhs).Nodup) (hc : c ∈ cs) :
    (fileValues cs).lookup (lhs c) = some (.node .composite (lhs c) (body c)) := by
  rw [← map_fst_fileBook] at hnodup
  rw [← values_fileBook]
  exact Book.lookup hnodup (List.mem_map.mpr ⟨c, hc, rfl⟩)

theorem exists_of_lookup_fileValues (h : (fileValues cs).lookup n = some node) :
    ∃ c ∈ cs, n = lhs c ∧ node = .node .composite (lhs c) (body c) := by
  rw [← values_fileBook] at h
  obtain ⟨us, hus, rfl⟩ := Book.exists_of_lookup h
  obtain ⟨c, hc, heq⟩ := List.mem_map.mp hus
  cases heq
  exact ⟨c, hc, rfl, rfl⟩

theorem mem_references_reference :
    m ∈ (reference c).references ↔ c.isLeaf = false ∧ m = lhs c := by
  cases c with
  | leaf kind id name =>
      rw [reference, Tree.references]
      exact iff_of_false List.not_mem_nil fun h => Bool.noConfusion h.1
  | node kind id name sons =>
      rw [reference, Tree.references, List.mem_singleton]
      exact ⟨fun h => ⟨rfl, h⟩, fun h => h.2⟩

theorem mem_references_body (hne : c.sons ≠ []) :
    m ∈ (body c).flatMap Tree.references ↔ ∃ s ∈ c.sons, s.isLeaf = false ∧ m = lhs s := by
  have hsons : m ∈ (c.sons.map reference).flatMap Tree.references ↔
      ∃ s ∈ c.sons, s.isLeaf = false ∧ m = lhs s := by
    rw [List.mem_flatMap]
    simp only [List.mem_map, exists_exists_and_eq_and]
    exact exists_congr fun s => and_congr_right fun _ => mem_references_reference
  rw [← hsons, body]
  split
  · rw [List.flatMap_singleton, Tree.references_eq, if_neg (by simpa using hne)]
  · exact Iff.rfl

theorem refers_iff (hne : ∀ c ∈ cs, c.sons ≠ []) (hnodup : (cs.map lhs).Nodup) :
    Refers (fileValues cs) n m ↔
      ∃ c ∈ cs, n = lhs c ∧ ∃ s ∈ c.sons, s.isLeaf = false ∧ m = lhs s := by
  constructor
  · rintro ⟨node, hnode, hm⟩
    obtain ⟨c, hc, hn, rfl⟩ := exists_of_lookup_fileValues hnode
    exact ⟨c, hc, hn, (mem_references_body (hne c hc)).mp hm⟩
  · rintro ⟨c, hc, rfl, hs⟩
    exact ⟨_, lookup_fileValues hnodup hc, (mem_references_body (hne c hc)).mpr hs⟩

end FileValues

/-! ## The rules of a tree -/

/-- The nodes of a tree that have a line of their own. -/
def inner (c : Composite) : List Composite := c.nodes.filter fun d => !d.isLeaf

section Inner

variable {c d s : Composite} {n m : Bytes}

theorem mem_inner : d ∈ inner c ↔ d ∈ c.nodes ∧ d.isLeaf = false := by
  rw [inner, List.mem_filter, Bool.not_eq_true']

theorem nodup_inner (hids : (c.nodes.map Composite.id).Nodup) : ((inner c).map lhs).Nodup := by
  have hlhs : ∀ cs : List Composite, (cs.map Composite.id).Nodup → (cs.map lhs).Nodup := by
    intro cs h
    rw [List.nodup_iff_pairwise_ne, List.pairwise_map] at h ⊢
    exact h.imp fun hne heq => hne (lhs_injective heq)
  exact (hlhs _ hids).sublist (List.filter_sublist.map lhs)

theorem printable_sons {kind : NodeKind} {id : Nat} {name : Bytes} {sons : List Composite}
    (h : (Composite.node kind id name sons).shape.Printable) :
    sons ≠ [] ∧ ∀ s ∈ sons, s.shape.Printable ∨ ∃ i n, s = .leaf .commandComposite i n := by
  rw [Composite.shape, Composite.shapes_eq] at h
  generalize hshapes : sons.map Composite.shape = shapes at h
  have hsons : ∀ {c : Option (Lexeme command)} {us : List Tree},
      sons.map Composite.shape = commandNode c ++ us → commandNode c ++ us ≠ [] →
      (∀ u ∈ us, u.Printable) →
      sons ≠ [] ∧ ∀ s ∈ sons, s.shape.Printable ∨ ∃ i n, s = .leaf .commandComposite i n := by
    intro c us heq hne hus
    refine ⟨?_, fun s hs => ?_⟩
    · rintro rfl
      exact hne heq.symm
    · have hmem : s.shape ∈ commandNode c ++ us := heq ▸ List.mem_map_of_mem hs
      obtain hcommand | hmem := List.mem_append.mp hmem
      · rw [commandNode, Option.mem_toList, Option.map_eq_some_iff] at hcommand
        obtain ⟨_, _, hshape⟩ := hcommand
        cases s with
        | leaf kind i n =>
            cases hshape
            exact .inr ⟨i, _, rfl⟩
        | node => cases hshape
      · exact .inl (hus _ hmem)
  cases h with
  | rule t c hne hus => exact hsons hshapes (List.append_ne_nil_of_right_ne_nil _ hne) hus
  | injected t hne hus => exact hsons (c := none) hshapes hne hus
  | group c _ hne hus => exact hsons hshapes hne hus
  | plain _ _ hne hus => exact hsons (c := none) hshapes hne hus

theorem printable_inner (h : c.shape.Printable) (hd : d ∈ inner c) : d.shape.Printable := by
  induction c using Composite.induction with
  | h c ih =>
      obtain ⟨hmem, hinner⟩ := mem_inner.mp hd
      rw [Composite.nodes_eq, List.mem_cons] at hmem
      obtain rfl | hmem := hmem
      · exact h
      · obtain ⟨s, hs, hds⟩ := List.mem_flatMap.mp hmem
        cases c with
        | leaf => cases hs
        | node kind id name sons =>
            cases s with
            | leaf kind' id' name' =>
                rw [Composite.nodes, List.mem_singleton] at hds
                rw [hds] at hinner
                cases hinner
            | node kind' id' name' sons' =>
                refine ih _ hs (((printable_sons h).2 _ hs).resolve_right ?_)
                  (mem_inner.mpr ⟨hds, hinner⟩)
                rintro ⟨_, _, hs⟩
                cases hs

/-- The inner nodes of a tree are named as rules. -/
structure Legible (c : Composite) : Prop where
  ids : (c.nodes.map Composite.id).Nodup
  printable : ∀ d ∈ inner c, d.shape.Printable
  names : ∀ d ∈ inner c, IsName d.name

theorem Legible.sons (h : Legible c) : ∀ d ∈ inner c, d.sons ≠ [] := by
  intro d hd
  have hprint := h.printable d hd
  cases d with
  | leaf => cases (mem_inner.mp hd).2
  | node kind id name sons => exact (printable_sons hprint).1

theorem Legible.refers (h : Legible c) : Refers (fileValues (inner c)) n m ↔
    ∃ d ∈ inner c, n = lhs d ∧ ∃ s ∈ d.sons, s.isLeaf = false ∧ m = lhs s :=
  refers_iff h.sons (nodup_inner h.ids)

theorem Legible.unique (h : Legible c) (hd : d ∈ inner c) (hs : s ∈ inner c)
    (heq : lhs d = lhs s) : d = s :=
  List.inj_on_of_nodup_map (nodup_inner h.ids) hd hs heq

theorem son_mem_inner (hd : d ∈ inner c) (hs : s ∈ d.sons) (hleaf : s.isLeaf = false) :
    s ∈ inner c :=
  mem_inner.mpr ⟨Composite.nodes_trans (mem_inner.mp hd).1 (Composite.son_mem_nodes hs), hleaf⟩

/-- The rule of a node leads to those of the nodes below it and no further. -/
theorem Legible.acc (h : Legible c) (hd : d ∈ inner c) :
    Acc (flip (Refers (fileValues (inner c)))) (lhs d) := by
  induction d using Composite.induction with
  | h d ih =>
      refine .intro _ fun m hm => ?_
      obtain ⟨e, he, heq, s, hs, hleaf, rfl⟩ := h.refers.mp hm
      obtain rfl := h.unique hd he heq
      exact ih s hs (son_mem_inner hd hs hleaf)

theorem Legible.leads (h : Legible c) (hd : d ∈ inner c) :
    ∀ e ∈ inner d, ReflTransGen (Refers (fileValues (inner c))) (lhs d) (lhs e) := by
  induction d using Composite.induction with
  | h d ih =>
      intro e he
      obtain ⟨hmem, hinner⟩ := mem_inner.mp he
      rw [Composite.nodes_eq, List.mem_cons] at hmem
      obtain rfl | hmem := hmem
      · exact .refl
      · obtain ⟨s, hs, hes⟩ := List.mem_flatMap.mp hmem
        have hleaf : s.isLeaf = false := by
          cases s with
          | leaf kind id name =>
              rw [Composite.nodes, List.mem_singleton] at hes
              rw [hes] at hinner
              cases hinner
          | node => rfl
        have hsc := son_mem_inner hd hs hleaf
        exact .head (h.refers.mpr ⟨d, hd, rfl, s, hs, hleaf, rfl⟩)
          (ih s hs hsc e (mem_inner.mpr ⟨hes, hinner⟩))

/-- The rule of the root leads to the rules of the file. -/
theorem Legible.complete (h : Legible c) (hc : c.isLeaf = false) :
    (fileBook (inner c)).Complete (lhs c) := by
  have hroot : c ∈ inner c := mem_inner.mpr ⟨c.mem_nodes_self, hc⟩
  refine ⟨by rw [map_fst_fileBook]; exact nodup_inner h.ids, fun p hp => ?_, fun p hp m hm => ?_,
    fun m hm => ?_⟩
  · obtain ⟨d, hd, rfl⟩ := List.mem_map.mp hp
    rw [values_fileBook]
    exact h.acc hd
  · obtain ⟨d, hd, rfl⟩ := List.mem_map.mp hp
    obtain ⟨s, hs, hleaf, rfl⟩ := (mem_references_body (h.sons d hd)).mp hm
    rw [map_fst_fileBook]
    exact List.mem_map_of_mem (son_mem_inner hd hs hleaf)
  · rw [map_fst_fileBook] at hm
    obtain ⟨d, hd, rfl⟩ := List.mem_map.mp hm
    rw [values_fileBook]
    exact h.leads hroot d hd

end Inner

/-! ## The meaning of the file -/

section Meaning

variable {c d : Composite} {u : Tree}

theorem generatesAll_of_expands {values : Values} {cs : List Composite} {us : List Tree}
    {ρ : Bytes → Set Bytes} (h : List.Forall₂ (Expands values) (cs.map reference) us)
    (hson : ∀ c ∈ cs, ∀ u, Expands values (reference c) u →
      Tree.generates ρ u = Tree.generates ρ c.shape) :
    Tree.generatesAll ρ us = Tree.generatesAll ρ (Composite.shapes cs) := by
  induction cs generalizing us with
  | nil =>
      rw [List.map_nil] at h
      cases h
      rfl
  | cons c cs ih =>
      rw [List.map_cons] at h
      rw [List.forall_mem_cons] at hson
      cases h with
      | cons hexpands hrest =>
          rw [Composite.shapes, Tree.generatesAll, Tree.generatesAll, hson.1 _ hexpands,
            ih hrest hson.2]

theorem generates_of_ne_nil {ρ : Bytes → Set Bytes} {name : Bytes} {us : List Tree}
    (h : us ≠ []) :
    Tree.generates ρ (.node .composite name us) = concat (Tree.generatesAll ρ us) := by
  obtain ⟨t, ts, rfl⟩ := List.exists_cons_of_ne_nil h
  rw [Tree.generates]

/-- A node that is named as a rule is one, or an injected alternation. -/
theorem kind_of_printable {kind : NodeKind} {id : Nat} {name : Bytes} {sons : List Composite}
    (h : (Composite.node kind id name sons).shape.Printable) (hname : IsName name) :
    kind = .composite ∨ kind = .orComposite := by
  rw [Composite.shape] at h
  generalize Composite.shapes sons = shapes at h
  cases h with
  | rule => exact .inl rfl
  | injected => exact .inr rfl
  | group _ hforeign => exact absurd hname hforeign.not_isName
  | plain _ hforeign => exact absurd hname hforeign.not_isName

/-- The body of the line of a node generates what the node does, if its sons do. -/
theorem generates_body {values : Values} {kind : NodeKind} {id : Nat} {name n : Bytes}
    {sons : List Composite} {us : List Tree} {ρ : Bytes → Set Bytes}
    (hkind : kind = .composite ∨ kind = .orComposite) (hne : sons ≠ [])
    (hus : List.Forall₂ (Expands values) (body (.node kind id name sons)) us)
    (hson : ∀ s ∈ sons, ∀ u, Expands values (reference s) u →
      Tree.generates ρ u = Tree.generates ρ s.shape) :
    Tree.generates ρ (.node .composite n us) =
      Tree.generates ρ (Composite.node kind id name sons).shape := by
  rw [body] at hus
  rw [Composite.shape]
  split at hus
  · next hor =>
      have hkind : kind = .orComposite := by
        obtain rfl | hkind := hkind
        · cases hor.1
        · exact hkind
      subst hkind
      rw [Composite.sons] at hus
      cases hus with
      | cons halternation hnil =>
          cases hnil
          generalize hrefs : sons.map reference = refs at halternation
          have hrefs' : refs ≠ [] := by
            rw [← hrefs]
            simpa using hne
          cases halternation with
          | reference => exact absurd rfl hrefs'
          | undefined => exact absurd rfl hrefs'
          | inner _ hvs =>
              subst hrefs
              rw [generates_of_ne_nil (List.cons_ne_nil _ _), Tree.generatesAll,
                Tree.generatesAll, concat_singleton, Tree.generates, Tree.generates,
                generatesAll_of_expands hvs hson]
  · next hor =>
      rw [Composite.sons] at hus
      have hne' : us ≠ [] := by
        rintro rfl
        cases hsons : sons with
        | nil => exact hne hsons
        | cons s ss =>
            rw [hsons] at hus
            cases hus
      have hshapes : Composite.shapes sons ≠ [] := by
        rw [Composite.shapes_eq]
        simpa using hne
      rw [generates_of_ne_nil hne', generatesAll_of_expands hus hson]
      obtain rfl | rfl := hkind
      · rw [generates_of_ne_nil hshapes]
      · have hlen : sons.length = 1 := by
          have hpos := List.length_pos_iff.mpr hne
          have hle : ¬ 1 < sons.length := fun hlt => hor ⟨rfl, hlt⟩
          omega
        obtain ⟨s, rfl⟩ := List.length_eq_one_iff.mp hlen
        rw [Composite.shapes, Composite.shapes, Tree.generates, Tree.generatesAll,
          Tree.generatesAll, concat_singleton]
        simp

/-- What the rule of a node is expanded to generates what the node does. -/
theorem Legible.generates (h : Legible c) (hd : d ∈ c.nodes)
    (hexpands : Expands (fileValues (inner c)) (reference d) u) (ρ : Bytes → Set Bytes) :
    Tree.generates ρ u = Tree.generates ρ d.shape := by
  induction d using Composite.induction generalizing u with
  | h d ih =>
      cases d with
      | leaf kind id name =>
          rw [reference] at hexpands
          cases hexpands
          rfl
      | node kind id name sons =>
          have hinner : Composite.node kind id name sons ∈ inner c := mem_inner.mpr ⟨hd, rfl⟩
          have hlookup := lookup_fileValues (nodup_inner h.ids) hinner
          have hkind := kind_of_printable (h.printable _ hinner) (h.names _ hinner)
          have hson : ∀ s ∈ sons, ∀ u, Expands (fileValues (inner c)) (reference s) u →
              Tree.generates ρ u = Tree.generates ρ s.shape := fun s hs u hu =>
            ih s hs (Composite.nodes_trans hd (Composite.son_mem_nodes hs)) hu
          rw [reference] at hexpands
          cases hexpands with
          | inner hne => exact absurd rfl hne
          | undefined hrule =>
              rw [hlookup] at hrule
              cases hrule
          | @reference _ _ node us hrule hus =>
              rw [hlookup] at hrule
              cases hrule
              exact generates_body hkind (h.sons _ hinner) hus hson

end Meaning

/-! ## The lines of the file -/

section Text

variable {c d : Composite} {text rest : Bytes} {ts : List Token}

/-- The text of a node is read as a line. -/
structure Reads (c : Composite) (text : Bytes) (l : Line) : Prop where
  line : AnomalyInjector.line c = some text
  scans : ∀ {rest : Bytes} {ts : List Token}, Scans rest ts →
    Scans (text ++ rest) (l.tokens ++ ts)
  valid : ∀ t ∈ l.tokens, t.isInvalid = false

/-- The line without a rule. -/
def emptyLine : Line := ⟨none, ⟨.crlf, [10]⟩, rfl⟩

theorem scans_emptyLine (h : Scans rest ts) : Scans (10 :: rest) (emptyLine.tokens ++ ts) :=
  Scans.token (w := [10]) nofun (munch_newline rest) rfl h

theorem reads_leaf (kind : LeafKind) (id : Nat) (name : Bytes) :
    Reads (.leaf kind id name) [10] emptyLine where
  line := rfl
  scans h := scans_emptyLine h
  valid := List.forall_mem_singleton.mpr rfl

theorem Defines.reads {r : Rule} (h : Defines c r) :
    ∃ text, Reads c text ⟨some r, ⟨.crlf, [10]⟩, rfl⟩ := by
  obtain ⟨t, us, htokens, hline, ht, hus⟩ := h.line
  have hline' : (⟨some r, ⟨.crlf, [10]⟩, rfl⟩ : Line).tokens = t :: us ++ [⟨.crlf, [10]⟩] := by
    rw [Line.tokens, Option.map_some, Option.getD_some, htokens]
  refine ⟨_, hline, fun hrest => ?_, ?_⟩
  · rw [hline', List.append_assoc (t.text ++ spaced us), List.append_assoc (t :: us)]
    exact scans_words ht hus hrest
  · rw [hline']
    refine List.forall_mem_append.mpr ⟨List.forall_mem_cons.mpr ⟨ht.valid, fun u hu => ?_⟩,
      List.forall_mem_singleton.mpr rfl⟩
    exact (hus u hu).valid

/-- The lines of nodes, one after the other. -/
theorem scans_lines {cs : List Composite} {ps : List (Bytes × Line)}
    (h : List.Forall₂ (fun c p => Reads c p.1 p.2) cs ps) (hrest : Scans rest ts) :
    Scans ((ps.map Prod.fst).flatten ++ rest)
      ((ps.map Prod.snd).flatMap Line.tokens ++ ts) := by
  induction h with
  | nil => exact hrest
  | cons hreads _ ih =>
      rw [List.map_cons, List.map_cons, List.flatten_cons, List.flatMap_cons, List.append_assoc,
        List.append_assoc]
      exact hreads.scans ih

theorem forall₂_append_left {α β : Type} {R : α → β → Prop} {l₁ l₂ : List α} {l : List β}
    (h : List.Forall₂ R (l₁ ++ l₂) l) :
    ∃ m₁ m₂, l = m₁ ++ m₂ ∧ List.Forall₂ R l₁ m₁ ∧ List.Forall₂ R l₂ m₂ :=
  ⟨_, _, (List.take_append_drop l₁.length l).symm,
    (List.forall₂_take_append l l₁ l₂ h.flip).flip, (List.forall₂_drop_append l l₁ l₂ h.flip).flip⟩

/-- The writer prints the lines of the nodes in the order of the tree. -/
theorem writeInjectedTree_eq {deleted : List Nat} (hlive : ∀ d ∈ c.nodes, d.id ∉ deleted)
    {texts : List Bytes} (h : List.Forall₂ (fun d text => line d = some text) c.nodes texts) :
    writeInjectedTreeToABNF deleted c = some texts.flatten := by
  induction c using Composite.induction generalizing texts with
  | h c ih =>
      rw [Composite.nodes_eq] at h hlive
      rw [List.forall_mem_cons] at hlive
      obtain ⟨hself, hlive⟩ := hlive
      cases h with
      | @cons _ text _ texts hline hrest =>
          cases c with
          | leaf kind id name =>
              cases hrest
              rw [Composite.id] at hself
              rw [writeInjectedTreeToABNF, if_neg hself, hline, List.flatten_cons,
                List.flatten_nil, List.append_nil]
          | node kind id name sons =>
              have hsons : ∀ cs : List Composite, (∀ d ∈ cs, d ∈ sons) →
                  ∀ {texts : List Bytes}, List.Forall₂ (fun d text => line d = some text)
                    (cs.flatMap Composite.nodes) texts →
                  writeSonsToABNF deleted cs = some texts.flatten := by
                intro cs hcs texts hall
                induction cs generalizing texts with
                | nil =>
                    cases hall
                    rw [writeSonsToABNF]
                    rfl
                | cons d cs ihcs =>
                    rw [List.forall_mem_cons] at hcs
                    rw [List.flatMap_cons] at hall
                    obtain ⟨texts₁, texts₂, rfl, h₁, h₂⟩ := forall₂_append_left hall
                    have hlived : ∀ e ∈ d.nodes, e.id ∉ deleted := fun e he =>
                      hlive e (List.mem_flatMap.mpr ⟨d, hcs.1, he⟩)
                    rw [writeSonsToABNF, ih d hcs.1 hlived h₁, ihcs hcs.2 h₂, List.flatten_append]
                    rfl
              rw [Composite.id] at hself
              rw [writeInjectedTreeToABNF, if_neg hself, hline,
                hsons sons (fun _ hd => hd) hrest, List.flatten_cons]
              rfl

/-- A writer that comes to an end has met no deleted node. -/
theorem live_of_writeInjectedTree {deleted : List Nat} {text : Bytes}
    (h : writeInjectedTreeToABNF deleted c = some text) : ∀ d ∈ c.nodes, d.id ∉ deleted := by
  induction c using Composite.induction generalizing text with
  | h c ih =>
      rw [Composite.nodes_eq, List.forall_mem_cons]
      cases c with
      | leaf kind id name =>
          rw [writeInjectedTreeToABNF] at h
          split at h
          · cases h
          · next hself => exact ⟨hself, List.forall_mem_nil _⟩
      | node kind id name sons =>
          rw [writeInjectedTreeToABNF] at h
          split at h
          · cases h
          · next hself =>
              obtain ⟨_, _, h⟩ := Option.bind_eq_some_iff.mp h
              obtain ⟨texts, hsons, _⟩ := Option.bind_eq_some_iff.mp h
              have hlive : ∀ cs : List Composite, (∀ d ∈ cs, d ∈ sons) → ∀ {texts : Bytes},
                  writeSonsToABNF deleted cs = some texts →
                  ∀ d ∈ cs.flatMap Composite.nodes, d.id ∉ deleted := by
                intro cs hcs texts hwrite
                induction cs generalizing texts with
                | nil => exact List.forall_mem_nil _
                | cons d cs ihcs =>
                    rw [List.forall_mem_cons] at hcs
                    rw [writeSonsToABNF] at hwrite
                    obtain ⟨_, hd, hwrite⟩ := Option.bind_eq_some_iff.mp hwrite
                    obtain ⟨_, hrest, _⟩ := Option.bind_eq_some_iff.mp hwrite
                    rw [List.flatMap_cons]
                    exact List.forall_mem_append.mpr ⟨ih d hcs.1 hd, ihcs hcs.2 hrest⟩
              exact ⟨hself, hlive sons (fun _ hd => hd) hsons⟩

/-- The text of the file with these lines of the tree. -/
def fileText (text : Bytes) : Bytes := title ++ [10] ++ legend ++ [10] ++ [10] ++ text ++ [10]

theorem write_eq {deleted : List Nat} (hlive : ∀ d ∈ c.nodes, d.id ∉ deleted)
    {texts : List Bytes} (h : List.Forall₂ (fun d text => line d = some text) c.nodes texts) :
    write deleted c = some (fileText texts.flatten) := by
  rw [write, writeInjectedTree_eq hlive h]
  rfl

theorem live_of_write {deleted : List Nat} {text : Bytes} (h : write deleted c = some text) :
    ∀ d ∈ c.nodes, d.id ∉ deleted := by
  obtain ⟨_, hwrite, _⟩ := Option.map_eq_some_iff.mp h
  exact live_of_writeInjectedTree hwrite

theorem scans_comment {text : Bytes} (h : ∀ c ∈ text, (isWsp c || isVchar c) = true)
    (hrest : Scans rest ts) :
    Scans (59 :: text ++ 10 :: rest) (⟨.comment, 59 :: text ++ [10]⟩ :: ts) := by
  have hsplit : (59 :: text ++ 10 :: rest : Bytes) = (59 :: text ++ [10]) ++ rest := by simp
  have hlen : text.length + 2 = (59 :: text ++ [10] : Bytes).length := by simp
  have hmunch := munch_comment rest h
  rw [hsplit, hlen] at hmunch
  rw [hsplit]
  exact Scans.token nofun hmunch rfl hrest

/-- The lines of the file. -/
def fileLines (ls : List Line) : List Line :=
  ⟨none, ⟨.comment, title ++ [10]⟩, rfl⟩ :: ⟨none, ⟨.comment, legend ++ [10]⟩, rfl⟩ ::
    emptyLine :: (ls ++ [emptyLine])

theorem scans_file {ps : List (Bytes × Line)}
    (h : List.Forall₂ (fun c p => Reads c p.1 p.2) c.nodes ps) :
    Scans (fileText (ps.map Prod.fst).flatten)
      ((fileLines (ps.map Prod.snd)).flatMap Line.tokens) := by
  have htitle : ∀ c ∈ title.tail, (isWsp c || isVchar c) = true :=
    List.all_eq_true.mp (by decide +kernel)
  have hlegend : ∀ c ∈ legend.tail, (isWsp c || isVchar c) = true :=
    List.all_eq_true.mp (by decide +kernel)
  have hend : Scans [10] (emptyLine.tokens ++ []) := scans_emptyLine .nil
  have hlines := scans_emptyLine (scans_lines h hend)
  have hall := scans_comment htitle (scans_comment hlegend hlines)
  have htext : fileText (ps.map Prod.fst).flatten = 59 :: title.tail ++
      10 :: (59 :: legend.tail ++ 10 :: 10 :: ((ps.map Prod.fst).flatten ++ [10])) := by
    have htitle : (59 :: title.tail : Bytes) = title := rfl
    have hlegend : (59 :: legend.tail : Bytes) = legend := rfl
    rw [htitle, hlegend, fileText]
    simp only [List.append_assoc, List.cons_append, List.nil_append]
  have htokens : (fileLines (ps.map Prod.snd)).flatMap Line.tokens =
      ⟨.comment, 59 :: title.tail ++ [10]⟩ :: ⟨.comment, 59 :: legend.tail ++ [10]⟩ ::
        (emptyLine.tokens ++ ((ps.map Prod.snd).flatMap Line.tokens ++
          (emptyLine.tokens ++ []))) := by
    rw [fileLines, List.flatMap_cons, List.flatMap_cons, List.flatMap_cons, List.flatMap_append,
      List.flatMap_singleton, List.append_nil]
    rfl
  rw [htext, htokens]
  exact hall

/-- The rules of the lines are those of the inner nodes. -/
theorem Legible.exists_lines (h : Legible c) {cs : List Composite} (hcs : ∀ d ∈ cs, d ∈ c.nodes) :
    ∃ ps : List (Bytes × Line), List.Forall₂ (fun c p => Reads c p.1 p.2) cs ps ∧
      List.Forall₂ Defines (cs.filter fun d => !d.isLeaf)
        ((ps.map Prod.snd).filterMap Line.rule) := by
  induction cs with
  | nil => exact ⟨[], .nil, .nil⟩
  | cons d cs ih =>
      rw [List.forall_mem_cons] at hcs
      obtain ⟨ps, hps, hdefines⟩ := ih hcs.2
      cases d with
      | leaf kind id name =>
          exact ⟨([10], emptyLine) :: ps, .cons (reads_leaf kind id name) hps, hdefines⟩
      | node kind id name sons =>
          have hd : Composite.node kind id name sons ∈ inner c := mem_inner.mpr ⟨hcs.1, rfl⟩
          obtain ⟨r, hr⟩ := exists_defines (h.printable _ hd) (h.names _ hd)
            fun s hs hleaf => h.names s (son_mem_inner hd hs hleaf)
          obtain ⟨text, htext⟩ := hr.reads
          exact ⟨(text, _) :: ps, .cons htext hps, .cons hr hdefines⟩

end Text

/-! ## The parse of the file -/

/-- The tree that the rules of a file are expanded to. -/
def ExpandsTo (rules : List Rule) (u : Tree) : Prop :=
  ∃ r rest values fuel b, rules = r :: rest ∧ rulelist rules = .ok values ∧
    expand values r.name fuel = some b ∧ u = b.tree

/-- The parser accepts the text, and the tree it builds generates what `t` does. -/
def ReadAs (s : Bytes) (t : Tree) : Prop :=
  ∃ p rules u, ABNFParser.Parse s (.done p rules) ∧ p.parsingResult = true ∧ p.NoErrors ∧
    ExpandsTo rules u ∧ ∀ ρ, Tree.generates ρ u = Tree.generates ρ t

section Parse

variable {c d : Composite} {deleted : List Nat} {text : Bytes}

theorem ReadAs.accepted {t : Tree} (h : ReadAs text t) : Accepted text := by
  obtain ⟨p, rules, _, hparse, hresult, hno, _⟩ := h
  exact ⟨p, rules, hparse, hresult, hno⟩

theorem valid_fileLines {cs : List Composite} {ps : List (Bytes × Line)}
    (h : List.Forall₂ (fun c p => Reads c p.1 p.2) cs ps) :
    ∀ t ∈ (fileLines (ps.map Prod.snd)).flatMap Line.tokens, t.isInvalid = false := by
  have hlines : ∀ t ∈ (ps.map Prod.snd).flatMap Line.tokens, t.isInvalid = false := by
    induction h with
    | nil => exact nofun
    | cons hreads _ ih =>
        rw [List.map_cons, List.flatMap_cons]
        exact List.forall_mem_append.mpr ⟨hreads.valid, ih⟩
  rw [fileLines, List.flatMap_cons, List.flatMap_cons, List.flatMap_cons, List.flatMap_append,
    List.flatMap_singleton]
  have hempty : ∀ l : Line, l.rule = none → l.cnl.isInvalid = false →
      ∀ t ∈ l.tokens, t.isInvalid = false := by
    intro l hrule hcnl
    rw [Line.tokens, hrule]
    exact List.forall_mem_singleton.mpr hcnl
  exact List.forall_mem_append.mpr ⟨hempty _ rfl rfl, List.forall_mem_append.mpr
    ⟨hempty _ rfl rfl, List.forall_mem_append.mpr ⟨hempty _ rfl rfl,
      List.forall_mem_append.mpr ⟨hlines, hempty _ rfl rfl⟩⟩⟩⟩

/-- The file of a tree whose inner nodes are named as rules is accepted, and the parser
expands the rule of the root. -/
theorem Legible.parse (h : Legible c) (hc : c.isLeaf = false)
    (hlive : ∀ d ∈ c.nodes, d.id ∉ deleted) :
    ∃ text, write deleted c = some text ∧ ∃ p rules u, ABNFParser.Parse text (.done p rules) ∧
      p.parsingResult = true ∧ p.NoErrors ∧ ExpandsTo rules u ∧
      Expands (fileValues (inner c)) (reference c) u := by
  obtain ⟨ps, hreads, hdefines⟩ := h.exists_lines fun d (hd : d ∈ c.nodes) => hd
  have htexts : List.Forall₂ (fun d text => line d = some text) c.nodes (ps.map Prod.fst) := by
    rw [List.forall₂_map_right_iff]
    exact hreads.imp fun _ _ hr => hr.line
  refine ⟨_, write_eq hlive htexts, ?_⟩
  have hscan := scans_file hreads
  have hvalid := valid_fileLines hreads
  generalize fileText (ps.map Prod.fst).flatten = text at hscan
  generalize hls : ps.map Prod.snd = ls at hscan hvalid hdefines
  have hrules : (fileLines ls).filterMap Line.rule = ls.filterMap Line.rule := by
    rw [fileLines, List.filterMap_cons_none rfl, List.filterMap_cons_none rfl,
      List.filterMap_cons_none rfl, List.filterMap_append, List.filterMap_cons_none rfl,
      List.filterMap_nil, List.append_nil]
  have hinner : inner c = c :: (c.sons.flatMap Composite.nodes).filter fun d => !d.isLeaf := by
    rw [inner, Composite.nodes_eq, List.filter_cons_of_pos (by rw [hc]; rfl)]
  have hcomplete := h.complete hc
  have henters : List.Forall₂ Enters (fileBook (inner c)) ((fileLines ls).filterMap Line.rule) := by
    rw [hrules, fileBook, List.forall₂_map_left_iff]
    exact hdefines.imp fun _ _ hr => ⟨hr.name, hr.run⟩
  have hvalues := values_fileBook (inner c)
  rw [hinner] at hcomplete henters hvalues
  obtain ⟨p, r, rest, fuel, b, hparse, hresult, hno, hrulelist, hexpand, hexpands⟩ :=
    hcomplete.parse hscan hvalid henters
  refine ⟨p, _, b.tree, hparse, hresult, hno, ⟨r, rest, _, fuel, b, rfl, hrulelist, hexpand, rfl⟩,
    ?_⟩
  rw [← fileBook] at hexpands
  rw [hinner, ← hvalues]
  cases c with
  | leaf => cases hc
  | node => exact hexpands

/-- It is read as a tree that generates the same. -/
theorem Legible.readAs (h : Legible c) (hc : c.isLeaf = false)
    (hlive : ∀ d ∈ c.nodes, d.id ∉ deleted) :
    ∃ text, write deleted c = some text ∧ ReadAs text c.shape := by
  obtain ⟨text, hwrite, p, rules, u, hparse, hresult, hno, hrules, hexpands⟩ := h.parse hc hlive
  exact ⟨text, hwrite, p, rules, u, hparse, hresult, hno, hrules,
    h.generates c.mem_nodes_self hexpands⟩

end Parse

/-! ## Lines that are no rules -/

section Foreign

variable {c d : Composite} {deleted : List Nat} {text : Bytes}

theorem line_cons {s : Composite} {ss : List Composite} (hsons : d.sons = s :: ss) :
    line d = (sonText s).bind fun first =>
      (sonTexts (if d.isOr then ascii " / " else ascii " ") ss).map fun rest =>
        lhs d ++ ascii " = " ++ first ++ rest ++ [10] := by
  rw [line, hsons]
  simp only
  cases sonText s with
  | none => rfl
  | some first => cases sonTexts (if d.isOr then ascii " / " else ascii " ") ss <;> rfl

theorem exists_sonText {s : Composite}
    (h : s.shape.Printable ∨ ∃ i n, s = .leaf .commandComposite i n) :
    ∃ text, sonText s = some text := by
  obtain hprint | ⟨i, n, rfl⟩ := h
  · cases s with
    | leaf kind id name =>
        obtain ⟨e, t, hsay⟩ := exists_says hprint nofun
        exact ⟨_, hsay.text⟩
    | node kind id name sons => exact ⟨_, rfl⟩
  · exact ⟨n, rfl⟩

/-- Every node has a line. -/
theorem exists_line (h : d.isLeaf = false → d.shape.Printable) : ∃ text, line d = some text := by
  cases d with
  | leaf kind id name => exact ⟨[10], rfl⟩
  | node kind id name sons =>
      obtain ⟨hne, hsons⟩ := printable_sons (h rfl)
      obtain ⟨s, ss, rfl⟩ := List.exists_cons_of_ne_nil hne
      rw [List.forall_mem_cons] at hsons
      have htexts : ∀ (separator : Bytes) (cs : List Composite), (∀ s ∈ cs, s ∈ ss) →
          ∃ texts, sonTexts separator cs = some texts := by
        intro separator cs hcs
        induction cs with
        | nil => exact ⟨[], rfl⟩
        | cons s' cs ih =>
            rw [List.forall_mem_cons] at hcs
            obtain ⟨text, htext⟩ := exists_sonText (hsons.2 s' hcs.1)
            obtain ⟨texts, htexts⟩ := ih hcs.2
            exact ⟨_, by rw [sonTexts, htext, htexts]; rfl⟩
      obtain ⟨first, hfirst⟩ := exists_sonText hsons.1
      obtain ⟨rest, hrest⟩ := htexts _ ss fun _ hs => hs
      exact ⟨_, by rw [line_cons rfl, hfirst, hrest]; rfl⟩

theorem line_ends (h : line d = some text) : ∃ front, text = front ++ [10] := by
  cases hsons : d.sons with
  | nil =>
      rw [line, hsons] at h
      cases h
      exact ⟨[], rfl⟩
  | cons s ss =>
      rw [line_cons hsons, Option.bind_eq_some_iff] at h
      obtain ⟨first, _, h⟩ := h
      obtain ⟨rest, _, rfl⟩ := Option.map_eq_some_iff.mp h
      exact ⟨_, rfl⟩

theorem line_begins (hne : d.sons ≠ []) (h : line d = some text) :
    ∃ rest, text = lhs d ++ rest := by
  obtain ⟨s, ss, hsons⟩ := List.exists_cons_of_ne_nil hne
  rw [line_cons hsons, Option.bind_eq_some_iff] at h
  obtain ⟨first, _, h⟩ := h
  obtain ⟨rest, _, rfl⟩ := Option.map_eq_some_iff.mp h
  exact ⟨ascii " = " ++ first ++ rest ++ [10], by simp only [List.append_assoc]⟩

/-- Lines end in front of the next one. -/
theorem flatten_ends {cs : List Composite} {texts : List Bytes}
    (h : List.Forall₂ (fun d text => line d = some text) cs texts) (front : Bytes) :
    ∃ front', front ++ [10] ++ texts.flatten = front' ++ [10] := by
  induction h generalizing front with
  | nil => exact ⟨front, by rw [List.flatten_nil, List.append_nil]⟩
  | cons hline _ ih =>
      obtain ⟨u, rfl⟩ := line_ends hline
      obtain ⟨front', hfront⟩ := ih (front ++ [10] ++ u)
      refine ⟨front', ?_⟩
      rw [← hfront, List.flatten_cons]
      simp only [List.append_assoc]

/-- A text with a line that begins with a foreign character is not accepted. -/
theorem not_accepted_of_foreign {front rest : Bytes} {a : UInt8} (ha : isForeign a = true) :
    ¬ Accepted (front ++ 10 :: a :: rest) := by
  rintro ⟨p, rules, hparse, hresult, hno⟩
  cases hparse with
  | failed _ hp =>
      obtain ⟨_, hne⟩ := hp.right_of_failed.mp hresult
      exact hne rfl
  | @checked ts q r rules values fuel b hscan hp hexpand =>
      cases hp with
      | accept hderives hvalues =>
          have hvalid : ∀ t ∈ ts, t.isInvalid = false := by
            have htype : symbolType = .error := rfl
            rw [ABNFParser.printUnreferencedSymbols, ABNFParser.printUndefinedSymbols, htype,
              ABNFParser.noErrors_errors, ABNFParser.noErrors_errors,
              ABNFParser.noErrors_setParsingResult, noErrors_yylex] at hno
            exact hno.1.1
          have hreturned : returned ts = ts :=
            List.filter_eq_self.mpr fun t ht => by rw [hvalid t ht]; rfl
          rw [hreturned] at hderives
          obtain ⟨enough, hscan⟩ := hscan
          have hscan : scan enough ([] ++ (front ++ 10 :: a :: rest) :: []) = some ts :=
            hscan enough (Nat.le_refl enough)
          obtain ⟨fuel', ts₁, t, ts₂, ht, rfl, hrest⟩ := scan_line hscan
          obtain ⟨u, ts₃, rfl, hname, hcnl⟩ := scan_foreign ha hrest
          obtain hrule | hrule := hderives.after_cnl ht
          · exact hname hrule
          · rw [hcnl] at hrule
            cases hrule

/-- A node that is not named as a rule is not read. -/
theorem not_accepted (hprint : c.shape.Printable) (hd : d ∈ inner c) (hname : ¬ IsName d.name)
    (h : write deleted c = some text) : ¬ Accepted text := by
  have hlines : ∀ e ∈ c.nodes, ∃ text, line e = some text := fun e he =>
    exists_line fun hleaf => printable_inner hprint (mem_inner.mpr ⟨he, hleaf⟩)
  have hforeign : IsForeign d.name ∧ d.sons ≠ [] := by
    have hprint := printable_inner hprint hd
    cases d with
    | leaf => cases (mem_inner.mp hd).2
    | node kind id name sons =>
        refine ⟨?_, (printable_sons hprint).1⟩
        rw [Composite.shape] at hprint
        generalize Composite.shapes sons = shapes at hprint
        cases hprint with
        | rule t => exact absurd (isName_rulename t) hname
        | injected t => exact absurd (isName_rulename t) hname
        | group _ hforeign => exact hforeign
        | plain _ hforeign => exact hforeign
  obtain ⟨pre, post, hnodes⟩ := List.append_of_mem (mem_inner.mp hd).1
  obtain ⟨texts, htexts⟩ := exists_forall₂ hlines
  rw [write_eq (live_of_write h) htexts] at h
  cases h
  rw [hnodes] at htexts
  obtain ⟨texts₁, texts₂, rfl, hpre, htexts⟩ := forall₂_append_left htexts
  cases htexts with
  | @cons _ line _ texts₂ hline _ =>
      obtain ⟨front, hfront⟩ := flatten_ends hpre (title ++ [10] ++ legend ++ [10])
      obtain ⟨rest, rfl⟩ := line_begins hforeign.2 hline
      obtain ⟨a, s, hhead, ha⟩ : ∃ a s, lhs d = a :: s ∧ isForeign a = true := by
        have hchar := hforeign.1
        unfold IsForeign at hchar
        rw [lhs]
        cases hn : d.name with
        | nil =>
            rw [hn] at hchar
            exact ⟨45, _, rfl, hchar⟩
        | cons a s =>
            rw [hn] at hchar
            exact ⟨a, _, rfl, hchar⟩
      have htext : fileText (texts₁ ++ (lhs d ++ rest) :: texts₂).flatten =
          front ++ 10 :: a :: (s ++ rest ++ texts₂.flatten ++ [10]) := by
        have hfile : fileText (texts₁ ++ (lhs d ++ rest) :: texts₂).flatten =
            (title ++ [10] ++ legend ++ [10] ++ [10] ++ texts₁.flatten) ++
              (lhs d ++ rest ++ texts₂.flatten ++ [10]) := by
          rw [fileText, List.flatten_append, List.flatten_cons]
          simp only [List.append_assoc]
        rw [hfile, hfront, hhead]
        simp only [List.append_assoc, List.cons_append, List.nil_append]
      rw [htext]
      exact not_accepted_of_foreign ha

/-- A file comes about if and only if no node of the tree has been deleted. -/
theorem written_iff (hprint : c.shape.Printable) :
    (∃ text, write deleted c = some text) ↔ ∀ d ∈ c.nodes, d.id ∉ deleted := by
  constructor
  · rintro ⟨text, hwrite⟩
    exact live_of_write hwrite
  · intro hlive
    have hlines : ∀ e ∈ c.nodes, ∃ text, line e = some text := fun e he =>
      exists_line fun hleaf => printable_inner hprint (mem_inner.mpr ⟨he, hleaf⟩)
    obtain ⟨texts, htexts⟩ := exists_forall₂ hlines
    exact ⟨_, write_eq hlive htexts⟩

/-- The parser accepts the file of a tree if and only if all inner nodes are named as rules,
and then it builds a tree that generates the same. -/
theorem written_accepted_iff (hprint : c.shape.Printable) (hc : c.isLeaf = false)
    (hids : (c.nodes.map Composite.id).Nodup) (h : write deleted c = some text) :
    (Accepted text ↔ ∀ d ∈ inner c, IsName d.name) ∧ (Accepted text → ReadAs text c.shape) := by
  by_cases hnames : ∀ d ∈ inner c, IsName d.name
  · have hlegible : Legible c := ⟨hids, fun _ hd => printable_inner hprint hd, hnames⟩
    obtain ⟨text', hwrite, hread⟩ := hlegible.readAs hc (live_of_write h)
    rw [h] at hwrite
    cases hwrite
    exact ⟨⟨fun _ => hnames, fun _ => hread.accepted⟩, fun _ => hread⟩
  · push Not at hnames
    obtain ⟨d, hd, hname⟩ := hnames
    have hnot := not_accepted hprint hd hname h
    exact ⟨⟨fun h => absurd h hnot, fun h => absurd (h d hd) hname⟩, fun h => absurd h hnot⟩

end Foreign

end AnomalyInjector

end Stress

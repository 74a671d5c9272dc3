import Stress.Driver
import Stress.Tokens
import Stress.World
import Stress.Library.Reach
import Mathlib.Data.Set.Finite.Basic

/-!
# The expansion of the tree

`Composite::buildTree` (`lib/composite.cc`), which turns the tree of the first rule
into the tree of the whole grammar, and the marks of the rule map it sets.

The function works on nodes in place.  The entry of the first rule in the map is
the very root the expansion works on, so a reference to it copies what has been
built so far.  `plug` is the root as a function of the node that is being worked
on.

The parser does not check for references in a circle (`rulelist_error`), so a
grammar with one is expanded without end.  `expansion_ends_iff` says that these are
the only ones: the expansion ends exactly when no circle can be reached from the
first rule.  `expansion_correct` says what it builds then.
-/

namespace Stress

open Relation

/-! ## The function -/

/-- What `buildTree` has done to one node or to a list of sons: the nodes
afterwards, the names it has set as referenced and the names of the composites it
returns. -/
structure Built (α : Type) where
  tree : α
  referenced : List Bytes
  undefined : List Bytes

/-- The loop over the sons.  Those before the current one are `done`. -/
def buildSons (build : (Tree → Tree) → Tree → Option (Built Tree)) (plug : List Tree → Tree) :
    List Tree → List Tree → Option (Built (List Tree))
  | done, [] => some ⟨done, [], []⟩
  | done, t :: ts =>
      (build (fun u => plug (done ++ u :: ts)) t).bind fun b =>
        (buildSons build plug (done ++ [b.tree]) ts).map fun bs =>
          ⟨bs.tree, b.referenced ++ bs.referenced, b.undefined ++ bs.undefined⟩

/-- The sons the loop runs over: clones of the sons of the entry, if there is one.
The entry of the root is the root itself. -/
def sonsToBuild (values : Values) (root : Bytes) (whole : Tree) (name : Bytes)
    (sons : List Tree) : List Tree :=
  match values.lookup name with
  | some node => if name = root then whole.sons else node.sons
  | none => sons

/-- `Composite::buildTree`.  The name of a leaf is not the name of a rule. -/
def buildTree (values : Values) (root : Bytes) : Nat → (Tree → Tree) → Tree → Option (Built Tree)
  | 0, _, _ => none
  | _ + 1, _, .leaf kind name => some ⟨.leaf kind name, [], []⟩
  | fuel + 1, plug, .node kind name sons =>
      (buildSons (buildTree values root fuel) (fun ss => plug (.node kind name ss)) []
        (sonsToBuild values root (plug (.node kind name sons)) name sons)).map fun bs =>
          ⟨.node kind name bs.tree,
            (if (values.lookup name).isSome then [name] else []) ++ bs.referenced,
            bs.undefined ++ if bs.tree.isEmpty then [name] else []⟩

/-- The expansion of the first rule, as `ParserDriver::parse` calls it. -/
def expand (values : Values) (root : Bytes) (fuel : Nat) : Option (Built Tree) :=
  (values.lookup root).bind (buildTree values root fuel id)

/-- `checkUnreferencedSymbols`. -/
def checkUnreferencedSymbols (values : Values) (referenced : List Bytes) : List Bytes :=
  (values.map Prod.fst).filter fun n => !referenced.contains n

/-! ## The trees of the grammar -/

/-- The name of a rule. -/
def IsName (n : Bytes) : Prop := n.head?.any isLetter = true

instance (n : Bytes) : Decidable (IsName n) := inferInstanceAs (Decidable (_ = true))

/-- A tree of the parser: the nodes without sons are the references, and the other
nodes have no name of a rule. -/
inductive Tree.Source : Tree → Prop where
  | leaf (kind : LeafKind) (name : Bytes) : Source (.leaf kind name)
  | reference {name : Bytes} (h : IsName name) : Source (.node .composite name [])
  | inner {kind : NodeKind} {name : Bytes} {sons : List Tree} (hname : ¬ IsName name)
      (hne : sons ≠ []) (hsons : ∀ t ∈ sons, Source t) : Source (.node kind name sons)

mutual

/-- The names of the nodes without sons. -/
def Tree.references : Tree → List Bytes
  | .leaf _ _ => []
  | .node _ name [] => [name]
  | .node _ _ (t :: ts) => references t ++ Tree.referencesOf ts

def Tree.referencesOf : List Tree → List Bytes
  | [] => []
  | t :: ts => references t ++ Tree.referencesOf ts

end

theorem Tree.referencesOf_eq (ts : List Tree) : referencesOf ts = ts.flatMap references := by
  induction ts with
  | nil => rw [referencesOf, List.flatMap_nil]
  | cons t ts ih => rw [referencesOf, ih, List.flatMap_cons]

theorem Tree.references_eq (kind : NodeKind) (name : Bytes) (sons : List Tree) :
    (node kind name sons).references =
      if sons = [] then [name] else sons.flatMap references := by
  cases sons with
  | nil => rw [references, if_pos rfl]
  | cons t ts => rw [references, if_neg nofun, referencesOf_eq, List.flatMap_cons]

/-- One rule names another in its body. -/
def Refers (values : Values) (n m : Bytes) : Prop :=
  ∃ node, values.lookup n = some node ∧ m ∈ node.sons.flatMap Tree.references

/-- A map of the parser: every body is a list of trees of the parser, and the keys
are names of rules. -/
def Values.Source (values : Values) : Prop :=
  ∀ n node, values.lookup n = some node →
    IsName n ∧ ∃ sons, node = .node .composite n sons ∧ sons ≠ [] ∧ ∀ t ∈ sons, t.Source

theorem isName_rulename (t : Lexeme rulename) : IsName t.text := by
  obtain ⟨c, s, hc, _, ht⟩ := mem_rulename.mp t.mem
  rw [ht]
  exact hc

/-! ## What the parser builds -/

/-- A name that is no name of a rule and can begin no line of a grammar, also with a
dash behind it. -/
def IsForeign (n : Bytes) : Prop := isForeign (n.head?.getD 45) = true

instance (n : Bytes) : Decidable (IsForeign n) := inferInstanceAs (Decidable (_ = true))

theorem IsForeign.not_isName {n : Bytes} (h : IsForeign n) : ¬ IsName n := by
  intro hname
  have hnot : ((bytesOf isForeign).all fun c => !isLetter c) = true := by decide +kernel
  cases n with
  | nil => cases hname
  | cons c n =>
      have hletter := List.all_eq_true.mp hnot c (mem_bytesOf.mpr h)
      have hc : isLetter c = true := hname
      rw [hc] at hletter
      cases hletter

theorem isForeign_count (t : Lexeme repeatCount) : IsForeign t.text := by
  cases ht : t.text with
  | nil => exact rfl
  | cons c s =>
      have hc : isForeign c = true := by
        cases of_mem_repeatCount t.mem c (ht ▸ List.mem_cons_self) with
        | inl hdigit => rw [isForeign, hdigit, Bool.or_true]
        | inr hstar =>
            rw [hstar]
            rfl
      exact hc

/-- The leaf of a command, if there is one. -/
def commandNode (c : Option (Lexeme command)) : List Tree :=
  (c.map fun c => Tree.leaf .commandComposite c.text).toList

/-- A tree that the actions of the parser build. -/
inductive Tree.Parsed : Tree → Prop where
  | literal (l : Literal) : Parsed (.leaf l.kind l.name)
  | reference (t : Lexeme rulename) : Parsed (.node .composite t.text [])
  | group {name : Bytes} {sons : List Tree} (c : Option (Lexeme command))
      (hname : IsForeign name) (hne : commandNode c ++ sons ≠ []) (hsons : ∀ t ∈ sons, Parsed t) :
      Parsed (.node .composite name (commandNode c ++ sons))
  | plain {kind : NodeKind} {name : Bytes} {sons : List Tree} (hkind : kind ≠ .composite)
      (hname : IsForeign name) (hne : sons ≠ []) (hsons : ∀ t ∈ sons, Parsed t) :
      Parsed (.node kind name sons)

/-- A map of the parser: every body is an optional command with trees of the parser. -/
def Values.Parsed (values : Values) : Prop :=
  ∀ n node, values.lookup n = some node → ∃ (t : Lexeme rulename) (c : Option (Lexeme command))
    (sons : List Tree), n = t.text ∧ node = .node .composite n (commandNode c ++ sons) ∧
      sons ≠ [] ∧ ∀ t ∈ sons, t.Parsed

theorem source_commandNode {c : Option (Lexeme command)} {sons : List Tree}
    (h : ∀ t ∈ sons, t.Source) : ∀ t ∈ commandNode c ++ sons, t.Source := by
  refine List.forall_mem_append.mpr ⟨?_, h⟩
  cases c with
  | none => exact nofun
  | some c => exact List.forall_mem_singleton.mpr (.leaf _ _)

theorem Tree.Parsed.source {t : Tree} (h : t.Parsed) : t.Source := by
  induction h with
  | literal l => exact .leaf _ _
  | reference t => exact .reference (isName_rulename t)
  | group c hname hne _ ih => exact .inner hname.not_isName hne (source_commandNode ih)
  | plain _ hname hne _ ih => exact .inner hname.not_isName hne ih

theorem Values.Parsed.source {values : Values} (h : values.Parsed) : values.Source := by
  intro n node hl
  obtain ⟨t, c, sons, rfl, rfl, hne, hsons⟩ := h n node hl
  exact ⟨isName_rulename t, _, rfl, List.append_ne_nil_of_right_ne_nil _ hne,
    source_commandNode fun t ht => (hsons t ht).source⟩

theorem Bracket.parsed (b : Bracket) (c : Option (Lexeme command)) {ts : List Tree}
    (hne : commandNode c ++ ts ≠ []) (hts : ∀ t ∈ ts, t.Parsed) :
    ∀ t ∈ addNonTerminalNode b.node (commandNode c ++ ts) none, t.Parsed := by
  have hkind : NodeKind.composite ≠ .orComposite := nofun
  intro t ht
  cases b with
  | group =>
      rw [addNonTerminalNode, addTreeLink, node, Tree.foldl_link_of_ne hkind] at ht
      rw [List.mem_singleton.mp ht]
      exact .group c (by decide) hne hts
  | option =>
      rw [addNonTerminalNode, addTreeLink, node, Tree.foldl_link_of_ne hkind] at ht
      rw [List.mem_singleton.mp ht]
      exact .group c (by decide) hne hts

theorem Alternation.parsed_nodes {a : Alternation} (h : ∀ t ∈ a.allNodes, t.Parsed) :
    ∀ t ∈ a.nodes, t.Parsed := by
  cases a with
  | concatenation c =>
      rw [nodes]
      rwa [allNodes, concatenations, List.flatMap_singleton] at h
  | alternative a c =>
      rw [nodes_alternative]
      intro t ht
      rw [List.mem_singleton.mp ht]
      refine .plain (by simp) (by decide) ?_ h
      rw [allNodes, concatenations, List.flatMap_append, List.flatMap_singleton]
      intro hnil
      have hlen := c.length_nodes ▸ c.length_items_pos
      rw [(List.append_eq_nil_iff.mp hnil).2] at hlen
      cases hlen

mutual

theorem AbnfElement.parsed (e : AbnfElement) : ∀ t ∈ e.nodes, t.Parsed := by
  intro t ht
  match e with
  | .rulename r =>
      rw [AbnfElement.nodes] at ht
      rw [List.mem_singleton.mp ht]
      exact .reference r
  | .literal l =>
      rw [AbnfElement.nodes] at ht
      rw [List.mem_singleton.mp ht]
      exact .literal l
  | .bracket b a =>
      rw [AbnfElement.nodes] at ht
      exact b.parsed none a.nodes_ne_nil (Alternation.parsed_nodes a.parsed_allNodes) t ht
  | .bracketCommand b c =>
      rw [AbnfElement.nodes] at ht
      exact b.parsed (some c) nofun (List.forall_mem_nil _) t ht
  | .bracketWith b c a =>
      rw [AbnfElement.nodes] at ht
      exact b.parsed (some c) nofun (Alternation.parsed_nodes a.parsed_allNodes) t ht

theorem Repetition.parsed (r : Repetition) : ∀ t ∈ r.nodes, t.Parsed := by
  match r with
  | .element e =>
      rw [Repetition.nodes]
      exact e.parsed
  | .repeated c e =>
      have hkind : NodeKind.repeatComposite ≠ .orComposite := nofun
      rw [Repetition.nodes, addTreeLink, Tree.foldl_link_of_ne hkind]
      refine List.forall_mem_singleton.mpr (.plain nofun (isForeign_count c) ?_ e.parsed)
      obtain ⟨t, ht, _⟩ := e.nodes_eq
      rw [ht]
      exact nofun

theorem Concatenation.parsed (c : Concatenation) : ∀ t ∈ c.nodes, t.Parsed := by
  match c with
  | .repetition r =>
      rw [Concatenation.nodes]
      exact r.parsed
  | .append c r =>
      rw [Concatenation.nodes]
      exact List.forall_mem_append.mpr ⟨c.parsed, r.parsed⟩

theorem Alternation.parsed_allNodes (a : Alternation) : ∀ t ∈ a.allNodes, t.Parsed := by
  match a with
  | .concatenation c =>
      rw [Alternation.allNodes, Alternation.concatenations, List.flatMap_singleton]
      exact c.parsed
  | .alternative a c =>
      rw [Alternation.allNodes, Alternation.concatenations, List.flatMap_append,
        List.flatMap_singleton]
      exact List.forall_mem_append.mpr ⟨a.parsed_allNodes, c.parsed⟩

end

theorem Alternation.parsed (a : Alternation) : ∀ t ∈ a.nodes, t.Parsed :=
  parsed_nodes a.parsed_allNodes

/-- The body of a rule, as one node. -/
theorem parsed_grouped {c : Option (Lexeme command)} {ts : List Tree} (hne : ts ≠ [])
    (h : ∀ t ∈ ts, t.Parsed) : ∀ t ∈ grouped (commandNode c ++ ts), t.Parsed := by
  have hgroup : ∀ us : List Tree, us = commandNode c ++ ts →
      ∀ t ∈ [Tree.node .composite (ascii "()") us], t.Parsed := by
    rintro us rfl
    exact List.forall_mem_singleton.mpr
      (.group c (by decide) (List.append_ne_nil_of_right_ne_nil _ hne) h)
  cases c with
  | none =>
      rw [commandNode, Option.map_none, Option.toList_none, List.nil_append]
      unfold grouped
      split
      · exact h
      · exact h
      · exact hgroup ts rfl
  | some c =>
      obtain ⟨t, ts, rfl⟩ := List.exists_cons_of_ne_nil hne
      exact hgroup _ rfl

theorem parsed_incrSons {c : Option (Lexeme command)} {sons alternative : List Tree}
    (hsons : ∀ t ∈ sons, t.Parsed) (hne' : sons ≠ []) (halt : ∀ t ∈ alternative, t.Parsed)
    (hne : alternative ≠ []) : ∀ t ∈ incrSons (commandNode c ++ sons) alternative, t.Parsed := by
  obtain ⟨u, hu⟩ := exists_grouped hne
  have hnew : ∀ t ∈ grouped alternative, t.Parsed := parsed_grouped (c := none) hne halt
  have hbody := parsed_grouped (c := c) hne' hsons
  unfold incrSons
  rw [hu] at hnew ⊢
  split
  · next name ss heq =>
      rw [heq, List.forall_mem_singleton] at hbody
      refine List.forall_mem_singleton.mpr ?_
      cases hbody with
      | plain hkind hname _ hss =>
          exact .plain hkind hname nofun (List.forall_mem_append.mpr ⟨hnew, hss⟩)
  · refine List.forall_mem_singleton.mpr (.plain nofun (by decide) ?_
      (List.forall_mem_append.mpr ⟨hbody, hnew⟩))
    exact List.append_ne_nil_of_right_ne_nil _ nofun

theorem Values.Parsed.run {values values' : Values} {r : Rule} (hp : values.Parsed)
    (h : r.run values = .ok values') : values'.Parsed := by
  intro n node hl
  rw [r.run_ok h] at hl
  have hor : ∀ (t : Lexeme rulename) (c : Option (Lexeme command)) (e : Alternation),
      (values.lookup t.text).or (some (.node .composite t.text (commandNode c ++ e.nodes))) =
        some node →
      ∃ (t' : Lexeme rulename) (c : Option (Lexeme command)) (sons : List Tree),
        t.text = t'.text ∧ node = .node .composite t.text (commandNode c ++ sons) ∧ sons ≠ [] ∧
          ∀ t ∈ sons, t.Parsed := by
    intro t c e heq
    cases hold : values.lookup t.text with
    | none =>
        rw [hold] at heq
        cases heq
        exact ⟨t, c, e.nodes, rfl, rfl, e.nodes_ne_nil, e.parsed⟩
    | some node =>
        rw [hold] at heq
        cases heq
        exact hp _ _ hold
  split at hl
  · next hn =>
      subst hn
      cases r with
      | defined t e => exact hor t none e hl
      | definedWith t c e => exact hor t (some c) e hl
      | incremental t e =>
          obtain ⟨u, hu, rfl⟩ := Option.map_eq_some_iff.mp hl
          obtain ⟨t', c, sons, hn, rfl, hne, hsons⟩ := hp _ u hu
          exact ⟨t', none, _, hn, rfl, incrSons_ne_nil _ _,
            parsed_incrSons hsons hne e.parsed e.nodes_ne_nil⟩
  · exact hp n node hl

theorem parsed_rulelist {rules : List Rule} {values : Values} (h : rulelist rules = .ok values) :
    values.Parsed := by
  induction rules using List.reverseRecOn generalizing values with
  | nil =>
      cases h
      intro n t ht
      cases ht
  | append_singleton rules r ih =>
      rw [rulelist_append] at h
      cases hr : rulelist rules with
      | error x =>
          rw [hr] at h
          cases h
      | ok v =>
          rw [hr] at h
          exact (ih hr).run h

theorem source_rulelist {rules : List Rule} {values : Values} (h : rulelist rules = .ok values) :
    values.Source := (parsed_rulelist h).source

/-! ## Fuel -/

variable {values : Values} {root : Bytes} {plug : Tree → Tree} {t : Tree} {b : Built Tree}

theorem buildSons_cons {build : (Tree → Tree) → Tree → Option (Built Tree)}
    {plug : List Tree → Tree} {done ts : List Tree} {bs : Built (List Tree)} :
    buildSons build plug done (t :: ts) = some bs ↔
      ∃ b bs', build (fun u => plug (done ++ u :: ts)) t = some b ∧
        buildSons build plug (done ++ [b.tree]) ts = some bs' ∧
        bs = ⟨bs'.tree, b.referenced ++ bs'.referenced, b.undefined ++ bs'.undefined⟩ := by
  rw [buildSons, Option.bind_eq_some_iff]
  constructor
  · rintro ⟨b, hb, hmap⟩
    obtain ⟨bs', hbs, rfl⟩ := Option.map_eq_some_iff.mp hmap
    exact ⟨b, bs', hb, hbs, rfl⟩
  · rintro ⟨b, bs', hb, hbs, rfl⟩
    exact ⟨b, hb, Option.map_eq_some_iff.mpr ⟨bs', hbs, rfl⟩⟩

theorem buildSons_mono {build build' : (Tree → Tree) → Tree → Option (Built Tree)}
    (h : ∀ plug t b, build plug t = some b → build' plug t = some b) {plug : List Tree → Tree}
    {done ts : List Tree} {bs : Built (List Tree)} (hs : buildSons build plug done ts = some bs) :
    buildSons build' plug done ts = some bs := by
  induction ts generalizing done bs with
  | nil => exact hs
  | cons t ts ih =>
      obtain ⟨b, bs', hb, hbs, heq⟩ := buildSons_cons.mp hs
      exact buildSons_cons.mpr ⟨b, bs', h _ _ _ hb, ih hbs, heq⟩

theorem buildTree_succ {fuel : Nat} (h : buildTree values root fuel plug t = some b) :
    buildTree values root (fuel + 1) plug t = some b := by
  induction fuel generalizing plug t b with
  | zero => cases h
  | succ fuel ih =>
      cases t with
      | leaf kind name => exact h
      | node kind name sons =>
          rw [buildTree, Option.map_eq_some_iff] at h ⊢
          obtain ⟨bs, hbs, heq⟩ := h
          exact ⟨bs, buildSons_mono (fun _ _ _ => ih) hbs, heq⟩

theorem buildTree_mono {fuel fuel' : Nat} (hle : fuel ≤ fuel')
    (h : buildTree values root fuel plug t = some b) :
    buildTree values root fuel' plug t = some b := by
  induction hle with
  | refl => exact h
  | step _ ih => exact buildTree_succ ih

/-- A rule has one expansion, whatever the fuel. -/
theorem expand_unique {fuel fuel' : Nat} {b' : Built Tree} (h : expand values root fuel = some b)
    (h' : expand values root fuel' = some b') : b = b' := by
  obtain ⟨node, hnode, hb⟩ := Option.bind_eq_some_iff.mp h
  rw [expand, hnode, Option.bind_some] at h'
  have hmax := buildTree_mono (Nat.le_max_left fuel fuel') hb
  rw [buildTree_mono (Nat.le_max_right fuel fuel') h'] at hmax
  exact (Option.some.inj hmax).symm

/-! ## The expansion of a grammar without circles -/

/-- What the expansion is for: every reference to a rule has the expanded body of
the rule as its sons. -/
inductive Expands (values : Values) : Tree → Tree → Prop where
  | leaf (kind : LeafKind) (name : Bytes) : Expands values (.leaf kind name) (.leaf kind name)
  | reference {kind : NodeKind} {name : Bytes} {node : Tree} {us : List Tree}
      (hrule : values.lookup name = some node)
      (hsons : List.Forall₂ (Expands values) node.sons us) :
      Expands values (.node kind name []) (.node kind name us)
  | undefined {kind : NodeKind} {name : Bytes} (hrule : values.lookup name = none) :
      Expands values (.node kind name []) (.node kind name [])
  | inner {kind : NodeKind} {name : Bytes} {sons us : List Tree} (hne : sons ≠ [])
      (hsons : List.Forall₂ (Expands values) sons us) :
      Expands values (.node kind name sons) (.node kind name us)

theorem forall₂_unique {α β : Type} {R : α → β → Prop} {l : List α} {m m' : List β}
    (hunique : ∀ b ∈ m, ∀ a b', R a b → R a b' → b = b') (h : List.Forall₂ R l m)
    (h' : List.Forall₂ R l m') : m = m' := by
  induction h generalizing m' with
  | nil =>
      cases h'
      rfl
  | cons hab _ ih =>
      rw [List.forall_mem_cons] at hunique
      cases h' with
      | cons hab' hrest' => rw [hunique.1 _ _ hab hab', ih hunique.2 hrest']

/-- A tree has one expansion. -/
theorem Expands.unique {values : Values} {t u u' : Tree} (h : Expands values t u)
    (h' : Expands values t u') : u = u' := by
  induction u using Tree.induction generalizing t u' with
  | h u ih =>
      cases h with
      | leaf =>
          cases h'
          rfl
      | undefined hrule =>
          cases h' with
          | reference hrule' =>
              rw [hrule] at hrule'
              cases hrule'
          | undefined => rfl
          | inner hne => exact absurd rfl hne
      | reference hrule hus =>
          cases h' with
          | reference hrule' hus' =>
              rw [hrule] at hrule'
              cases hrule'
              exact congrArg _ (forall₂_unique (fun v hv t _ (hv₁ : Expands values t v) hv₂ =>
                ih v hv hv₁ hv₂) hus hus')
          | undefined hrule' =>
              rw [hrule] at hrule'
              cases hrule'
          | inner hne => exact absurd rfl hne
      | inner hne hus =>
          cases h' with
          | reference => exact absurd rfl hne
          | undefined => exact absurd rfl hne
          | inner _ hus' =>
              exact congrArg _ (forall₂_unique (fun v hv t _ (hv₁ : Expands values t v) hv₂ =>
                ih v hv hv₁ hv₂) hus hus')

/-- Every node that is not a leaf has a son. -/
inductive Tree.Full : Tree → Prop where
  | leaf (kind : LeafKind) (name : Bytes) : Full (.leaf kind name)
  | node {kind : NodeKind} {name : Bytes} {sons : List Tree} (hne : sons ≠ [])
      (hsons : ∀ t ∈ sons, Full t) : Full (.node kind name sons)

/-- One of the names leads to `n`. -/
def Leads (values : Values) (ms : List Bytes) (n : Bytes) : Prop :=
  ∃ m ∈ ms, ReflTransGen (Refers values) m n

/-- The marks and the returned names are those of what can be reached. -/
structure NamesRules (values : Values) (ms referenced undefined : List Bytes) : Prop where
  mem_referenced : ∀ n, n ∈ referenced ↔ Leads values ms n ∧ (values.lookup n).isSome = true
  mem_undefined : ∀ n, n ∈ undefined ↔ Leads values ms n ∧ values.lookup n = none

theorem leads_append {ms ms' : List Bytes} {n : Bytes} :
    Leads values (ms ++ ms') n ↔ Leads values ms n ∨ Leads values ms' n := by
  simp only [Leads, List.mem_append, or_and_right, exists_or]

theorem not_leads_nil {n : Bytes} : ¬ Leads values [] n := by
  rintro ⟨m, hm, _⟩
  cases hm

theorem NamesRules.nil : NamesRules values [] [] [] :=
  ⟨fun _ => ⟨nofun, fun h => absurd h.1 not_leads_nil⟩,
    fun _ => ⟨nofun, fun h => absurd h.1 not_leads_nil⟩⟩

theorem NamesRules.append {ms ms' rs rs' us us' : List Bytes} (h : NamesRules values ms rs us)
    (h' : NamesRules values ms' rs' us') :
    NamesRules values (ms ++ ms') (rs ++ rs') (us ++ us') := by
  constructor
  · intro n
    rw [List.mem_append, h.mem_referenced, h'.mem_referenced, leads_append, or_and_right]
  · intro n
    rw [List.mem_append, h.mem_undefined, h'.mem_undefined, leads_append, or_and_right]

/-- A rule leads to itself and to where its body leads. -/
theorem leads_rule {m n : Bytes} {node : Tree} (hrule : values.lookup m = some node) :
    Leads values [m] n ↔ n = m ∨ Leads values (node.sons.flatMap Tree.references) n := by
  constructor
  · rintro ⟨k, hk, hreach⟩
    rw [List.mem_singleton] at hk
    subst hk
    cases hreach.cases_head with
    | inl heq => exact .inl heq.symm
    | inr hstep =>
        obtain ⟨m', ⟨node', hnode, hm'⟩, hrest⟩ := hstep
        rw [hrule] at hnode
        cases hnode
        exact .inr ⟨m', hm', hrest⟩
  · rintro (rfl | ⟨m', hm', hreach⟩)
    · exact ⟨n, List.mem_singleton_self n, .refl⟩
    · exact ⟨m, List.mem_singleton_self m, .head ⟨node, hrule, hm'⟩ hreach⟩

theorem leads_undefined {m n : Bytes} (hrule : values.lookup m = none) :
    Leads values [m] n ↔ n = m := by
  constructor
  · rintro ⟨k, hk, hreach⟩
    rw [List.mem_singleton] at hk
    subst hk
    cases hreach.cases_head with
    | inl heq => exact heq.symm
    | inr hstep =>
        obtain ⟨_, ⟨node, hnode, _⟩, _⟩ := hstep
        rw [hrule] at hnode
        cases hnode
  · rintro rfl
    exact ⟨n, List.mem_singleton_self n, .refl⟩

theorem NamesRules.rule {m : Bytes} {node : Tree} {rs us : List Bytes}
    (hrule : values.lookup m = some node)
    (h : NamesRules values (node.sons.flatMap Tree.references) rs us) :
    NamesRules values [m] (m :: rs) us := by
  constructor
  · intro n
    rw [List.mem_cons, h.mem_referenced, leads_rule hrule, or_and_right]
    refine or_congr_left ⟨fun heq => ⟨heq, ?_⟩, fun hn => hn.1⟩
    rw [heq, hrule]
    rfl
  · intro n
    rw [h.mem_undefined, leads_rule hrule, or_and_right]
    refine ⟨.inr, fun hn => hn.resolve_left fun hself => ?_⟩
    rw [hself.1, hrule] at hself
    cases hself.2

theorem NamesRules.undefined {m : Bytes} (hrule : values.lookup m = none) :
    NamesRules values [m] [] [m] := by
  constructor
  · intro n
    rw [leads_undefined hrule]
    refine ⟨nofun, fun hn => ?_⟩
    rw [hn.1, hrule] at hn
    cases hn.2
  · intro n
    rw [List.mem_singleton, leads_undefined hrule]
    refine ⟨fun heq => ⟨heq, ?_⟩, fun hn => hn.1⟩
    rw [heq, hrule]

/-- A node has been expanded as it should. -/
structure Correct (values : Values) (t : Tree) (b : Built Tree) : Prop where
  expands : Expands values t b.tree
  names : NamesRules values t.references b.referenced b.undefined
  full : b.undefined = [] → b.tree.Full

/-- A node is expanded as it should, wherever it stands. -/
def Builds (values : Values) (root : Bytes) (t : Tree) : Prop :=
  ∀ plug, ∃ fuel b, buildTree values root fuel plug t = some b ∧ Correct values t b

theorem buildSons_correct {ts : List Tree} (h : ∀ t ∈ ts, Builds values root t)
    (plug : List Tree → Tree) (done : List Tree) :
    ∃ fuel us rs undef, buildSons (buildTree values root fuel) plug done ts =
        some ⟨done ++ us, rs, undef⟩ ∧
      List.Forall₂ (Expands values) ts us ∧
      NamesRules values (ts.flatMap Tree.references) rs undef ∧
      (undef = [] → ∀ u ∈ us, u.Full) := by
  induction ts generalizing done with
  | nil => exact ⟨0, [], [], [], by rw [List.append_nil]; rfl, .nil, .nil, nofun⟩
  | cons t ts ih =>
      rw [List.forall_mem_cons] at h
      obtain ⟨fuel, b, hb, hcorrect⟩ := h.1 fun u => plug (done ++ u :: ts)
      obtain ⟨fuel', us, rs, undef, hbs, hus, hnames, hfull⟩ := ih h.2 (done ++ [b.tree])
      refine ⟨max fuel fuel', b.tree :: us, b.referenced ++ rs, b.undefined ++ undef, ?_,
        .cons hcorrect.expands hus, hcorrect.names.append hnames, ?_⟩
      · refine buildSons_cons.mpr ⟨b, _, buildTree_mono (Nat.le_max_left _ _) hb,
          buildSons_mono (fun _ _ _ => buildTree_mono (Nat.le_max_right _ _)) hbs, ?_⟩
        rw [List.append_assoc]
        rfl
      · intro hnil
        obtain ⟨hb, hundef⟩ := List.append_eq_nil_iff.mp hnil
        exact List.forall_mem_cons.mpr ⟨hcorrect.full hb, hfull hundef⟩

/-- A tree of the parser is expanded as it should if its references are. -/
theorem builds_of_source (hs : values.Source) (ht : t.Source)
    (h : ∀ m ∈ t.references, Builds values root (.node .composite m [])) :
    Builds values root t := by
  induction ht with
  | leaf kind name =>
      intro plug
      exact ⟨1, _, rfl, .leaf kind name, .nil, fun _ => .leaf kind name⟩
  | reference hname => exact h _ (by rw [Tree.references]; exact List.mem_singleton_self _)
  | @inner kind name sons hname hne hsons ih =>
      intro plug
      rw [Tree.references_eq, if_neg hne] at h
      have hrule : values.lookup name = none := by
        cases hl : values.lookup name with
        | none => rfl
        | some node => exact absurd (hs name node hl).1 hname
      obtain ⟨fuel, us, rs, undef, hbs, hus, hnames, hfull⟩ := buildSons_correct
        (fun t ht => ih t ht fun m hm => h m (List.mem_flatMap.mpr ⟨t, ht, hm⟩))
        (fun ss => plug (.node kind name ss)) []
      have hus' : us ≠ [] := by
        intro hnil
        rw [hnil] at hus
        cases hus
        exact hne rfl
      have hempty : us.isEmpty = false := by
        cases us with
        | nil => exact absurd rfl hus'
        | cons u us => rfl
      refine ⟨fuel + 1, ⟨.node kind name us, rs, undef⟩, ?_, ?_⟩
      · rw [buildTree, sonsToBuild, hrule]
        simp only [hbs, Option.map_some, List.nil_append, hempty]
        simp
      · refine ⟨.inner hne hus, ?_, fun hnil => .node hus' (hfull hnil)⟩
        rw [Tree.references_eq, if_neg hne]
        exact hnames

/-- A node with the name of a rule is expanded as it should if it takes over the body
and the trees of the body are. -/
theorem build_rule (hs : values.Source) {name : Bytes} {node : Tree} {ss : List Tree}
    (hrule : values.lookup name = some node)
    (hbody : sonsToBuild values root (plug (.node .composite name ss)) name ss = node.sons)
    (hsons : ∀ t ∈ node.sons, Builds values root t) :
    ∃ fuel b, buildTree values root fuel plug (.node .composite name ss) = some b ∧
      Correct values (.node .composite name []) b := by
  obtain ⟨fuel, us, rs, undef, hbs, hus, hnames, hfull⟩ :=
    buildSons_correct hsons (fun ss => plug (.node .composite name ss)) []
  obtain ⟨_, sons, rfl, hne, _⟩ := hs name node hrule
  have hus' : us ≠ [] := by
    intro hnil
    rw [hnil] at hus
    cases hus
    exact hne rfl
  refine ⟨fuel + 1, ⟨.node .composite name us, name :: rs, undef⟩, ?_, ?_⟩
  · rw [buildTree, hbody, hbs, hrule]
    simp [hus']
  · refine ⟨.reference hrule hus, ?_, fun hnil => .node hus' (hfull hnil)⟩
    rw [Tree.references]
    exact hnames.rule hrule

/-- A rule other than the first one is expanded as it should where its references
end and do not come back to the first rule. -/
theorem builds_of_acc (hs : values.Source) {m : Bytes} (hacc : Acc (flip (Refers values)) m)
    (hroot : ∀ n, ReflTransGen (Refers values) m n → n ≠ root) :
    Builds values root (.node .composite m []) := by
  induction hacc with
  | intro m _ ih =>
      intro plug
      cases hrule : values.lookup m with
      | none =>
          refine ⟨1, ⟨.node .composite m [], [], [m]⟩, ?_, .undefined hrule, ?_, nofun⟩
          · rw [buildTree, sonsToBuild, hrule]
            rfl
          · rw [Tree.references]
            exact .undefined hrule
      | some node =>
          obtain ⟨_, sons, rfl, _, hsons⟩ := hs m node hrule
          refine build_rule hs hrule ?_ fun t ht => ?_
          · rw [sonsToBuild, hrule]
            exact if_neg (hroot m .refl)
          · refine builds_of_source hs (hsons t ht) fun n hn => ?_
            have hstep : Refers values m n := ⟨_, hrule, List.mem_flatMap.mpr ⟨t, ht, hn⟩⟩
            exact ih n hstep fun k hk => hroot k (.head hstep hk)

/-- The first rule is expanded as it should where its references end. -/
theorem expand_correct (hs : values.Source) {node : Tree} (hrule : values.lookup root = some node)
    (hacc : Acc (flip (Refers values)) root) :
    ∃ fuel b, expand values root fuel = some b ∧
      Correct values (.node .composite root []) b := by
  obtain ⟨_, sons, rfl, _, hsons⟩ := hs root node hrule
  have hbody : sonsToBuild values root (id (.node .composite root sons)) root sons = sons := by
    rw [sonsToBuild, hrule]
    exact if_pos rfl
  simp only [expand, hrule, Option.bind_some]
  refine build_rule hs hrule hbody fun t ht => ?_
  refine builds_of_source hs (hsons t ht) fun n hn => ?_
  have hstep : Refers values root n := ⟨_, hrule, List.mem_flatMap.mpr ⟨t, ht, hn⟩⟩
  refine builds_of_acc hs (hacc.inv hstep) fun k hk heq => ?_
  subst heq
  exact Reach.not_transGen_of_acc hacc (.head' hstep hk)

/-! ## Circles -/

mutual

/-- A tree as it was before the rules in it were expanded. -/
def Tree.strip (values : Values) : Tree → Tree
  | .leaf kind name => .leaf kind name
  | .node kind name sons =>
      .node kind name (if (values.lookup name).isSome then [] else Tree.stripSons values sons)

def Tree.stripSons (values : Values) : List Tree → List Tree
  | [] => []
  | t :: ts => Tree.strip values t :: Tree.stripSons values ts

end

theorem Tree.stripSons_eq (ts : List Tree) : stripSons values ts = ts.map (strip values) := by
  induction ts with
  | nil => rw [stripSons, List.map_nil]
  | cons t ts ih => rw [stripSons, ih, List.map_cons]

theorem Tree.strip_of_some {kind : NodeKind} {name : Bytes} {node : Tree} (sons : List Tree)
    (h : values.lookup name = some node) :
    strip values (.node kind name sons) = .node kind name [] := by
  rw [strip, h]
  rfl

theorem Tree.strip_of_none {kind : NodeKind} {name : Bytes} (sons : List Tree)
    (h : values.lookup name = none) :
    strip values (.node kind name sons) = .node kind name (sons.map (strip values)) := by
  rw [strip, h, stripSons_eq]
  rfl

/-- In a tree of the parser nothing has been expanded. -/
theorem strip_of_source (hs : values.Source) (ht : t.Source) : t.strip values = t := by
  induction ht with
  | leaf kind name => rw [Tree.strip]
  | reference hname =>
      rw [Tree.strip, Tree.stripSons, ite_self]
  | @inner kind name sons hname hne hsons ih =>
      have hrule : values.lookup name = none := by
        cases hl : values.lookup name with
        | none => rfl
        | some node => exact absurd (hs name node hl).1 hname
      rw [Tree.strip_of_none sons hrule, List.map_congr_left ih, List.map_id']

theorem map_strip_of_source (hs : values.Source) {ts : List Tree} (hts : ∀ t ∈ ts, t.Source) :
    ts.map (Tree.strip values) = ts := by
  rw [List.map_congr_left fun t ht => strip_of_source hs (hts t ht), List.map_id']

/-- The references of a node that has been expanded end, and the expansion has only
put sons below references. -/
def Ends (values : Values) (root : Bytes) (body : List Tree) (fuel : Nat) : Prop :=
  ∀ plug t b,
    (∀ u, u.strip values = t.strip values → (plug u).sons.map (Tree.strip values) = body) →
    buildTree values root fuel plug t = some b →
    b.tree.strip values = t.strip values ∧
      ∀ m ∈ (t.strip values).references, Acc (flip (Refers values)) m

theorem Ends.sons {body : List Tree} {fuel : Nat} (h : Ends values root body fuel)
    {plug : List Tree → Tree} {done ts : List Tree} {bs : Built (List Tree)}
    (hplug : ∀ us, us.map (Tree.strip values) = (done ++ ts).map (Tree.strip values) →
      (plug us).sons.map (Tree.strip values) = body)
    (hbs : buildSons (buildTree values root fuel) plug done ts = some bs) :
    bs.tree.map (Tree.strip values) = (done ++ ts).map (Tree.strip values) ∧
      ∀ m ∈ (ts.map (Tree.strip values)).flatMap Tree.references, Acc (flip (Refers values)) m := by
  induction ts generalizing done bs with
  | nil =>
      cases hbs
      exact ⟨by rw [List.append_nil], nofun⟩
  | cons t ts ih =>
      obtain ⟨b, bs', hb, hrest, rfl⟩ := buildSons_cons.mp hbs
      obtain ⟨hstrip, hacc⟩ := h _ t b (fun u hu => hplug _ (by simp [hu])) hb
      have hdone : ((done ++ [b.tree]) ++ ts).map (Tree.strip values) =
          (done ++ t :: ts).map (Tree.strip values) := by simp [hstrip]
      obtain ⟨hstrips, haccs⟩ := ih (fun us hus => hplug us (hus.trans hdone)) hrest
      refine ⟨hstrips.trans hdone, ?_⟩
      rw [List.map_cons, List.flatMap_cons]
      exact List.forall_mem_append.mpr ⟨hacc, haccs⟩

/-- By induction on the fuel.  A reference to the first rule copies the tree built
so far, and stripped of what has been built that is the body of the first rule. -/
theorem ends (hs : values.Source) {node : Tree} (hroot : values.lookup root = some node)
    (fuel : Nat) : Ends values root node.sons fuel := by
  induction fuel with
  | zero =>
      intro plug t b _ hb
      cases hb
  | succ fuel ih =>
      intro plug t b hplug hb
      cases t with
      | leaf kind name =>
          cases hb
          exact ⟨rfl, by rw [Tree.strip, Tree.references]; exact nofun⟩
      | node kind name sons =>
          rw [buildTree, Option.map_eq_some_iff] at hb
          obtain ⟨bs, hbs, rfl⟩ := hb
          cases hrule : values.lookup name with
          | none =>
              rw [sonsToBuild, hrule] at hbs
              obtain ⟨hstrip, hacc⟩ := ih.sons (fun us hus => hplug _ (by
                rw [Tree.strip_of_none us hrule, Tree.strip_of_none sons hrule, hus]
                rfl)) hbs
              rw [List.nil_append] at hstrip
              rw [Tree.strip_of_none _ hrule, Tree.strip_of_none sons hrule, hstrip]
              refine ⟨rfl, ?_⟩
              rw [Tree.references_eq]
              split
              · refine List.forall_mem_singleton.mpr (.intro _ fun m hm => ?_)
                obtain ⟨node', hnode, _⟩ := hm
                rw [hrule] at hnode
                cases hnode
              · exact hacc
          | some node' =>
              have hwhole : ∀ us, (plug (.node kind name us)).sons.map (Tree.strip values) =
                  node.sons := fun us => hplug _ (by
                    rw [Tree.strip_of_some us hrule, Tree.strip_of_some sons hrule])
              rw [Tree.strip_of_some _ hrule, Tree.strip_of_some sons hrule, Tree.references]
              refine ⟨rfl, List.forall_mem_singleton.mpr (.intro _ fun m hm => ?_)⟩
              obtain ⟨_, hacc⟩ := ih.sons (fun us _ => hwhole us) hbs
              obtain ⟨node'', hnode, hm⟩ := hm
              rw [hrule] at hnode
              cases hnode
              refine hacc m ?_
              by_cases hname : name = root
              · subst hname
                rw [hrule] at hroot
                cases hroot
                rw [sonsToBuild, hrule]
                simp only [if_true, hwhole]
                exact hm
              · obtain ⟨_, ss, rfl, _, hss⟩ := hs name node' hrule
                rw [sonsToBuild, hrule]
                simp only [if_neg hname]
                rw [Tree.sons] at hm ⊢
                rw [map_strip_of_source hs hss]
                exact hm

/-- An expansion that ends has met no circle. -/
theorem acc_of_expand (hs : values.Source) {fuel : Nat} (h : expand values root fuel = some b) :
    Acc (flip (Refers values)) root := by
  rw [expand, Option.bind_eq_some_iff] at h
  obtain ⟨node, hroot, hb⟩ := h
  obtain ⟨_, sons, rfl, _, hsons⟩ := hs root node hroot
  cases fuel with
  | zero => cases hb
  | succ fuel =>
      rw [buildTree, Option.map_eq_some_iff] at hb
      obtain ⟨bs, hbs, _⟩ := hb
      have hbody : sonsToBuild values root (id (.node .composite root sons)) root sons = sons := by
        rw [sonsToBuild, hroot]
        exact if_pos rfl
      rw [hbody] at hbs
      have hstrip := map_strip_of_source hs hsons
      obtain ⟨_, hacc⟩ := (ends hs hroot fuel).sons (fun us hus => by
        rw [List.nil_append, hstrip] at hus
        exact hus) hbs
      rw [hstrip] at hacc
      refine .intro _ fun m hm => ?_
      obtain ⟨node', hnode, hm⟩ := hm
      rw [hroot] at hnode
      cases hnode
      exact hacc m hm

/-! ## Whole rule lists -/

/-- From one rule only finitely many names can be reached. -/
theorem finite_reach (values : Values) (root : Bytes) :
    {n | ReflTransGen (Refers values) root n}.Finite := by
  let names := root :: values.flatMap fun p => p.2.sons.flatMap Tree.references
  refine (List.finite_toSet names).subset fun n hn => ?_
  cases hn.cases_tail with
  | inl heq =>
      rw [heq]
      exact List.mem_cons_self
  | inr hstep =>
      obtain ⟨m, _, node, hnode, hm⟩ := hstep
      obtain ⟨l₁, l₂, hl, _⟩ := List.lookup_eq_some_iff.mp hnode
      refine List.mem_cons_of_mem _ (List.mem_flatMap.mpr ⟨(m, node), ?_, hm⟩)
      rw [hl]
      simp

/-- What the lines of a file make of a rule: its first definition with its `=/`
lines. -/
def definition (n : Bytes) (rules : List Rule) : Option Tree :=
  rules.foldl (fun old r => if r.name = n then r.entry old else old) none

theorem lookup_rulelist {rules : List Rule} {values : Values} (h : rulelist rules = .ok values)
    (n : Bytes) : values.lookup n = definition n rules := by
  induction rules using List.reverseRecOn generalizing values with
  | nil =>
      cases h
      rfl
  | append_singleton rules r ih =>
      rw [rulelist_append] at h
      cases hr : rulelist rules with
      | error x =>
          rw [hr] at h
          cases h
      | ok v =>
          rw [hr] at h
          rw [r.run_ok h, ih hr, definition, definition, List.foldl_append]
          rfl

/-- The first rule of a list is in the map. -/
theorem lookup_first {r : Rule} {rules : List Rule} {values : Values}
    (h : rulelist (r :: rules) = .ok values) : ∃ node, values.lookup r.name = some node := by
  induction rules using List.reverseRecOn generalizing values with
  | nil =>
      have hrun : r.run [] = .ok values := by
        rw [← h]
        exact (bind_pure _).symm
      rw [r.run_ok hrun, if_pos rfl]
      cases r with
      | defined t e => exact ⟨_, rfl⟩
      | definedWith t c e => exact ⟨_, rfl⟩
      | incremental t e => cases hrun
  | append_singleton rules r' ih =>
      rw [← List.cons_append, rulelist_append] at h
      cases hr : rulelist (r :: rules) with
      | error x =>
          rw [hr] at h
          cases h
      | ok v =>
          rw [hr] at h
          obtain ⟨node, hnode⟩ := ih hr
          rw [r'.run_ok h, hnode]
          split
          · cases r' with
            | defined t e => exact ⟨_, rfl⟩
            | definedWith t c e => exact ⟨_, rfl⟩
            | incremental t e => exact ⟨_, rfl⟩
          · exact ⟨node, rfl⟩

/-- The error for a rule that is defined by itself is never raised. -/
theorem rulelist_error {rules : List Rule} : rulelist rules ≠ .error .definedByItself := by
  induction rules using List.reverseRecOn with
  | nil => exact nofun
  | append_singleton rules r ih =>
      intro h
      rw [rulelist_append] at h
      cases hr : rulelist rules with
      | error x =>
          rw [hr] at h ih
          exact ih h
      | ok v =>
          rw [hr] at h
          have hrun : r.run v = .error .definedByItself := h
          cases r with
          | defined t e =>
              rw [Rule.run, define_eq] at hrun
              cases hrun
          | definedWith t c e =>
              rw [Rule.run, define_eq] at hrun
              cases hrun
          | incremental t e =>
              rw [Rule.run, addIncrAlternative] at hrun
              cases hl : v.lookup t.text with
              | none =>
                  rw [hl] at hrun
                  cases hrun
              | some node =>
                  rw [hl] at hrun
                  cases hrun

/-- The parser never rejects a rule that refers to itself, and the expansion of the
first rule ends if and only if no rule that refers to itself, directly or through
others, can be reached from it. -/
theorem expansion_ends_iff (r : Rule) (rules : List Rule) :
    rulelist (r :: rules) ≠ .error .definedByItself ∧
      ∀ values, rulelist (r :: rules) = .ok values →
        ((∃ fuel b, expand values r.name fuel = some b) ↔
          Reach.Acyclic (Refers values) r.name) := by
  refine ⟨rulelist_error, fun values h => ?_⟩
  have hs := source_rulelist h
  rw [← Reach.acc_iff_acyclic (finite_reach values r.name)]
  constructor
  · rintro ⟨fuel, b, hb⟩
    exact acc_of_expand hs hb
  · intro hacc
    obtain ⟨node, hnode⟩ := lookup_first h
    obtain ⟨fuel, b, hb, _⟩ := expand_correct hs hnode hacc
    exact ⟨fuel, b, hb⟩

/-- The rule `r = r` is accepted, and its expansion does not end. -/
theorem self_reference_accepted :
    ¬ ∀ (r : Rule) (rules : List Rule) (values : Values), rulelist (r :: rules) = .ok values →
      ∃ fuel b, expand values r.name fuel = some b := by
  intro hall
  let name : Lexeme rulename := ⟨ascii "r", mem_rulename.mpr ⟨114, [], by decide, nofun, rfl⟩⟩
  let r : Rule := .defined name (.concatenation (.repetition (.element (.rulename name))))
  let values : Values :=
    [(ascii "r", .node .composite (ascii "r") [.node .composite (ascii "r") []])]
  have hrules : rulelist [r] = .ok values := rfl
  obtain ⟨fuel, b, hb⟩ := hall r [] values hrules
  have hacc := acc_of_expand (source_rulelist hrules) hb
  exact Reach.not_transGen_of_acc hacc (.single ⟨_, rfl, List.mem_singleton_self _⟩)

/-! ## The nodes of the run -/

mutual

/-- A node without the ids. -/
def Composite.shape : Composite → Tree
  | .leaf kind _ name => .leaf kind name
  | .node kind _ name sons => .node kind name (Composite.shapes sons)

def Composite.shapes : List Composite → List Tree
  | [] => []
  | c :: cs => Composite.shape c :: Composite.shapes cs

end

theorem Composite.shapes_eq (cs : List Composite) : shapes cs = cs.map shape := by
  induction cs with
  | nil => rw [shapes, List.map_nil]
  | cons c cs ih => rw [shapes, ih, List.map_cons]

theorem Composite.sons_ne_nil_of_full {c : Composite} (h : c.shape.Full) :
    ∀ d ∈ c.nodes, d.isLeaf = false → d.sons ≠ [] := by
  intro d hd
  induction c using Composite.induction with
  | h c ih =>
      rw [nodes_eq, List.mem_cons] at hd
      cases c with
      | leaf kind id name =>
          obtain rfl | hd := hd
          · exact nofun
          · cases hd
      | node kind id name sons =>
          rw [shape] at h
          cases h with
          | node hne hsons =>
              rw [shapes_eq] at hne hsons
              obtain rfl | hd := hd
              · exact fun _ hnil => hne (List.map_eq_nil_iff.mpr hnil)
              · obtain ⟨e, he, hde⟩ := List.mem_flatMap.mp hd
                exact ih e he (hsons _ (List.mem_map_of_mem he)) hde

/-- The results of `runSonsAction` for a node with sons have a last one. -/
theorem runSonsReturn_ne_nil {P : Platform} {cs : List Composite} (hne : cs ≠ []) {w w' : World}
    {result : List State} (h : runSonsReturn P cs w = .ok (result, w')) : result ≠ [] := by
  cases cs with
  | nil => exact absurd rfl hne
  | cons c cs =>
      rw [runSonsReturn, Comp.bind_ok] at h
      obtain ⟨s, w₁, _, h⟩ := h
      split at h
      · cases h
        exact nofun
      · obtain ⟨ss, w₂, _, h⟩ := Comp.bind_ok.mp h
        cases h
        exact nofun

/-- Where no rule that can be reached from the first one refers to itself, the tree of
the first rule is its expansion.  It returns the names that can be reached and are not
defined, it leaves those unreferenced that are defined and cannot be reached, and if
every name is defined `ReturnAction` has a last result in every node. -/
theorem expansion_correct (r : Rule) (rules : List Rule) {values : Values}
    (h : rulelist (r :: rules) = .ok values)
    (hacyclic : Reach.Acyclic (Refers values) r.name) :
    (∀ n, values.lookup n = definition n (r :: rules)) ∧
    ∃ b, (∃ enough, ∀ fuel, enough ≤ fuel → expand values r.name fuel = some b) ∧
      Expands values (.node .composite r.name []) b.tree ∧
      (∀ n, n ∈ b.undefined ↔
        ReflTransGen (Refers values) r.name n ∧ values.lookup n = none) ∧
      (∀ n, n ∈ checkUnreferencedSymbols values b.referenced ↔
        (values.lookup n).isSome = true ∧ ¬ ReflTransGen (Refers values) r.name n) ∧
      (b.undefined = [] → b.tree.Full ∧
        ∀ c : Composite, c.shape = b.tree → ∀ d ∈ c.nodes, d.isLeaf = false →
          ∀ P w result w', runSonsReturn P d.sons w = .ok (result, w') → result ≠ []) := by
  have hs := source_rulelist h
  obtain ⟨node, hnode⟩ := lookup_first h
  obtain ⟨enough, b, hb, hcorrect⟩ := expand_correct hs hnode
    ((Reach.acc_iff_acyclic (finite_reach values r.name)).mpr hacyclic)
  have hreach : ∀ n, Leads values [r.name] n ↔ ReflTransGen (Refers values) r.name n := by
    intro n
    refine ⟨?_, fun hn => ⟨r.name, List.mem_singleton_self _, hn⟩⟩
    rintro ⟨m, hm, hn⟩
    rwa [List.mem_singleton.mp hm] at hn
  have hnames := hcorrect.names
  rw [Tree.references] at hnames
  refine ⟨lookup_rulelist h, b, ⟨enough, fun fuel hle => ?_⟩, hcorrect.expands, fun n => ?_,
    fun n => ?_, fun hnil => ⟨hcorrect.full hnil, ?_⟩⟩
  · rw [expand, hnode] at hb ⊢
    exact buildTree_mono hle hb
  · rw [hnames.mem_undefined, hreach]
  · have hkey : n ∈ values.map Prod.fst ↔ (values.lookup n).isSome = true := by
      rw [List.mem_map, List.lookup_isSome_iff]
      refine exists_congr fun p => and_congr_right fun _ => ?_
      rw [beq_iff_eq, eq_comm]
    have hnot : (!b.referenced.contains n) = true ↔ n ∉ b.referenced := by
      rw [Bool.not_eq_true', ← Bool.not_eq_true, List.contains_iff_mem]
    rw [checkUnreferencedSymbols, List.mem_filter, hkey, hnot, hnames.mem_referenced, hreach]
    tauto
  · rintro c hc d hd hleaf P w result w' hrun
    have hfull := hcorrect.full hnil
    rw [← hc] at hfull
    exact runSonsReturn_ne_nil (Composite.sons_ne_nil_of_full hfull d hd hleaf) hrun

/-- The grammar `r = s`, `s = "a"`. -/
def firstOfTwo : Rule :=
  .defined ⟨ascii "r", mem_rulename.mpr ⟨114, [], by decide, nofun, rfl⟩⟩
    (.concatenation (.repetition (.element (.rulename
      ⟨ascii "s", mem_rulename.mpr ⟨115, [], by decide, nofun, rfl⟩⟩))))

def secondOfTwo : Rule :=
  .defined ⟨ascii "s", mem_rulename.mpr ⟨115, [], by decide, nofun, rfl⟩⟩
    (.concatenation (quotedText (ascii "a") (List.all_eq_true.mp rfl)))

/-- The map of this grammar. -/
def twoValues : Values :=
  [(ascii "r", .node .composite (ascii "r") [.node .composite (ascii "s") []]),
   (ascii "s", .node .composite (ascii "s") [.leaf .stringLeaf (ascii "\\\"a\\\"")])]

theorem expansion_correct_twoValues : ∃ b enough, ∀ fuel, enough ≤ fuel →
    expand twoValues (ascii "r") fuel = some b := by
  have hrules : rulelist [firstOfTwo, secondOfTwo] = .ok twoValues := rfl
  have hends : ∃ b, expand twoValues firstOfTwo.name 4 = some b := ⟨_, rfl⟩
  obtain ⟨b, hb⟩ := hends
  have hacyclic := (Reach.acc_iff_acyclic (finite_reach twoValues firstOfTwo.name)).mp
    (acc_of_expand (source_rulelist hrules) hb)
  obtain ⟨_, b, ⟨enough, hb⟩, _⟩ := expansion_correct firstOfTwo [secondOfTwo] hrules hacyclic
  exact ⟨b, enough, hb⟩

end Stress

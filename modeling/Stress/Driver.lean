import Stress.Grammar

/-!
# The rule map of the driver

What the `rule` actions of the parser do to the map of rules (`src/parser.yy`,
`ParserDriver` of `src/driver.cc`).

The first definition of a name stays, later ones are read and dropped.  A line
`r =/ e` changes the tree of `r` in place.  Where the body of `r` is already one
alternation, `addSons` puts the new alternative in front of the old ones, and an
`e` with several alternatives becomes one alternative.

`alternatives_as_written_iff` says for a whole rule list when the alternatives of
every rule stand in the order of the file.
-/

namespace Stress

/-- `rule`. -/
inductive Rule where
  | defined (t : Lexeme rulename) (e : Alternation)
  | definedWith (t : Lexeme rulename) (c : Lexeme command) (e : Alternation)
  | incremental (t : Lexeme rulename) (e : Alternation)

/-- The errors of `rule` that end the parse. -/
inductive RuleError where
  | definedByItself
  | notDefined
deriving DecidableEq, Repr

def RuleError.message : RuleError → String
  | .definedByItself => "invalid rule: a symbol can't be defined by itself"
  | .notDefined => "invalid rule: symbol not previously defined"

/-- `ParserDriver::values` without the marks. -/
abbrev Values := List (Bytes × Tree)

/-! ## The actions -/

/-- `ParserDriver::addValue`.  `map::insert` keeps what is there. -/
def addValue (node : Tree) (values : Values) : Values :=
  if (values.lookup node.name).isSome then values else values ++ [(node.name, node)]

/-- One node for a list of nodes. -/
def grouped : List Tree → List Tree
  | [] => []
  | [t] => [t]
  | ts => [.node .composite (ascii "()") ts]

/-- What `ParserDriver::addIncrAlternative` does to the sons of the rule.  A rule
has sons, so `sonsOfA` is no null pointer. -/
def incrSons (sons alternative : List Tree) : List Tree :=
  match grouped sons with
  | [.node .orComposite name ss] => [.node .orComposite name (grouped alternative ++ ss)]
  | sonsOfA => [.node .orComposite (ascii "/") (sonsOfA ++ grouped alternative)]

/-- `setSons`. -/
def Tree.setSons (sons : List Tree) : Tree → Tree
  | .leaf kind name => .leaf kind name
  | .node kind name _ => .node kind name sons

/-- `ParserDriver::addIncrAlternative`. -/
def addIncrAlternative (name : Bytes) (alternative : List Tree) (values : Values) :
    Bool × Values :=
  match values.lookup name with
  | none => (false, values)
  | some _ => (true, values.map fun p =>
      (p.1, if p.1 = name then p.2.setSons (incrSons p.2.sons alternative) else p.2))

/-- The action of a definition, where `elements` are the nodes behind the sign. -/
def define (name : Bytes) (elements : List Tree) (values : Values) : Except RuleError Values :=
  match addTreeLink [.node .composite name []] elements with
  | (true, node :: _) => .ok (addValue node values)
  | _ => .error .definedByItself

/-- The action of a rule. -/
def Rule.run (values : Values) : Rule → Except RuleError Values
  | .defined t e => define t.text e.nodes values
  | .definedWith t c e => define t.text (.leaf .commandComposite c.text :: e.nodes) values
  | .incremental t e =>
      match addIncrAlternative t.text e.nodes values with
      | (true, values) => .ok values
      | (false, _) => .error .notDefined

/-- The map after a rule list. -/
def rulelist (rules : List Rule) : Except RuleError Values := rules.foldlM Rule.run []

/-! ## The map -/

theorem Alternation.nodes_ne_nil (a : Alternation) : a.nodes ≠ [] := by
  cases a with
  | concatenation c =>
      rw [nodes]
      exact List.length_pos_iff.mp (c.length_nodes ▸ c.length_items_pos)
  | alternative a c =>
      rw [nodes_alternative]
      exact List.cons_ne_nil _ _

def Rule.name : Rule → Bytes
  | .defined t _ => t.text
  | .definedWith t _ _ => t.text
  | .incremental t _ => t.text

/-- A definition never fails. -/
theorem define_eq (name : Bytes) (elements : List Tree) (values : Values) :
    define name elements values = .ok (addValue (.node .composite name elements) values) := by
  have hne : NodeKind.composite ≠ .orComposite := nofun
  rw [define, addTreeLink, Tree.foldl_link_of_ne hne]

theorem lookup_addValue (node : Tree) (values : Values) (n : Bytes) :
    (addValue node values).lookup n =
      (values.lookup n).or (if n = node.name then some node else none) := by
  rw [addValue]
  split
  · next h =>
      split
      · next hn =>
          rw [hn, Option.or_of_isSome h]
      · rw [Option.or_none]
  · rw [List.lookup_append, List.lookup_cons, List.lookup_nil]
    congr 1
    by_cases hn : n = node.name
    · simp [hn]
    · simp [hn, beq_eq_false_iff_ne.mpr hn]

/-! ## Alternatives -/

/-- The alternatives of a rule body. -/
def alternatives : List Tree → List Tree
  | [.node .orComposite _ ss] => ss
  | ts => grouped ts

/-- The body is one alternation. -/
def IsAlternation (ts : List Tree) : Prop := ∃ name ss, ts = [.node .orComposite name ss]

theorem alternatives_of_not {ts : List Tree} (h : ¬ IsAlternation ts) :
    alternatives ts = grouped ts := by
  unfold alternatives
  split
  · exact absurd ⟨_, _, rfl⟩ h
  · rfl

theorem exists_grouped {ts : List Tree} (h : ts ≠ []) : ∃ t, grouped ts = [t] := by
  unfold grouped
  split
  · exact absurd rfl h
  · exact ⟨_, rfl⟩
  · exact ⟨_, rfl⟩

theorem isAlternation_grouped {ts : List Tree} :
    IsAlternation (grouped ts) ↔ IsAlternation ts := by
  unfold grouped
  split
  · exact Iff.rfl
  · exact Iff.rfl
  · next h =>
      refine ⟨?_, ?_⟩
      · rintro ⟨_, _, heq⟩
        cases heq
      · rintro ⟨_, _, heq⟩
        exact (h _ heq).elim

/-- No node is its own only alternative. -/
theorem Tree.ne_node_self (kind : NodeKind) (name : Bytes) (t : Tree) :
    t ≠ .node kind name [t] := by
  intro heq
  have hsize := congrArg sizeOf heq
  rw [node.sizeOf_spec] at hsize
  simp only [List.cons.sizeOf_spec] at hsize
  omega

theorem cons_eq_append_singleton {α : Type} {x y : α} {l : List α} :
    x :: l = l ++ [y] ↔ y = x ∧ ∀ z ∈ l, z = x := by
  induction l generalizing x with
  | nil => simp [eq_comm]
  | cons z l ih =>
      rw [List.cons_append, List.cons.injEq, ih, List.forall_mem_cons]
      constructor
      · rintro ⟨rfl, hy, hall⟩
        exact ⟨hy, rfl, hall⟩
      · rintro ⟨hy, rfl, hall⟩
        exact ⟨rfl, hy, hall⟩

/-- When a line `=/` appends the alternatives of `e` to those of the body. -/
def AppendsTo (body e : List Tree) : Prop :=
  ¬ IsAlternation e ∧ ∀ name ss, body = [.node .orComposite name ss] →
    ∀ s ∈ ss, [s] = grouped e

theorem alternatives_incrSons_iff {body e : List Tree} (hbody : body ≠ []) (he : e ≠ []) :
    alternatives (incrSons body e) = alternatives body ++ alternatives e ↔ AppendsTo body e := by
  obtain ⟨u, hu⟩ := exists_grouped he
  by_cases hor : IsAlternation body
  · obtain ⟨name, ss, rfl⟩ := hor
    have hleft : alternatives (incrSons [.node .orComposite name ss] e) = u :: ss := by
      have hsons : incrSons [.node .orComposite name ss] e =
          [.node .orComposite name (grouped e ++ ss)] := rfl
      rw [hsons, hu]
      rfl
    have hbody' : alternatives [.node .orComposite name ss] = ss := rfl
    rw [hleft, hbody']
    by_cases hoe : IsAlternation e
    · refine ⟨fun heq => ?_, fun h => absurd hoe h.1⟩
      obtain ⟨m, xs, rfl⟩ := hoe
      cases hu
      have hxs : alternatives [.node .orComposite m xs] = xs := rfl
      rw [hxs] at heq
      have hlen : xs.length = 1 := by
        have := congrArg List.length heq
        rw [List.length_cons, List.length_append] at this
        omega
      obtain ⟨x, rfl⟩ := List.length_eq_one_iff.mp hlen
      have hx := (cons_eq_append_singleton.mp heq).1
      exact absurd hx (Tree.ne_node_self _ _ _)
    · rw [alternatives_of_not hoe, hu, cons_eq_append_singleton]
      constructor
      · rintro ⟨_, hall⟩
        refine ⟨hoe, fun name' ss' heq s hs => ?_⟩
        cases heq
        rw [hu, hall s hs]
      · rintro ⟨_, hall⟩
        refine ⟨rfl, fun s hs => ?_⟩
        have hone := hall name ss rfl s hs
        rw [hu] at hone
        exact List.singleton_inj.mp hone
  · obtain ⟨b, hb⟩ := exists_grouped hbody
    have hnot : ¬ IsAlternation [b] := fun h => hor (isAlternation_grouped.mp (hb ▸ h))
    have hleft : alternatives (incrSons body e) = [b, u] := by
      rw [incrSons, hb, hu]
      split
      · exact absurd ⟨_, _, by assumption⟩ hnot
      · rfl
    rw [hleft, alternatives_of_not hor, hb]
    by_cases hoe : IsAlternation e
    · refine ⟨fun heq => ?_, fun h => absurd hoe h.1⟩
      obtain ⟨m, xs, rfl⟩ := hoe
      cases hu
      have hxs : [.node .orComposite m xs] = xs := (List.cons.inj heq).2
      exact absurd (congrArg (Tree.node .orComposite m) hxs.symm) (Tree.ne_node_self _ _ _)
    · rw [alternatives_of_not hoe, hu]
      refine ⟨fun _ => ⟨hoe, fun name ss heq => absurd ⟨name, ss, heq⟩ hor⟩, fun _ => rfl⟩

/-! ## Whole rule lists -/

/-- The alternatives of a rule with one more line. -/
def Rule.adds (old : Option (List Tree)) : Rule → Option (List Tree)
  | .incremental _ e => old.map (· ++ alternatives e.nodes)
  | .defined _ e => old.or (some (alternatives e.nodes))
  | .definedWith _ c e => old.or (some (alternatives (.leaf .commandComposite c.text :: e.nodes)))

/-- The alternatives that the lines of a file give to a rule: those of its first
definition and then those of its `=/` lines. -/
def written (n : Bytes) (rules : List Rule) : Option (List Tree) :=
  rules.foldl (fun old r => if r.name = n then r.adds old else old) none

/-- The alternatives of every rule are the ones of the file, in its order. -/
def AsWritten (rules : List Rule) (values : Values) : Prop :=
  ∀ n, (values.lookup n).map (fun t => alternatives t.sons) = written n rules

/-- A `=/` line that only appends.  Other lines do so anyway. -/
def Rule.Appends (values : Values) : Rule → Prop
  | .incremental t e => ∀ node, values.lookup t.text = some node → AppendsTo node.sons e.nodes
  | _ => True

theorem rulelist_append (rules : List Rule) (r : Rule) :
    rulelist (rules ++ [r]) = (rulelist rules).bind (Rule.run · r) := by
  rw [rulelist, List.foldlM_append]
  simp only [List.foldlM_cons, List.foldlM_nil, bind_pure]
  rfl

/-- The entry of the rule's own name afterwards. -/
def Rule.entry (old : Option Tree) : Rule → Option Tree
  | .incremental _ e => old.map fun t => t.setSons (incrSons t.sons e.nodes)
  | .defined t e => old.or (some (.node .composite t.text e.nodes))
  | .definedWith t c e =>
      old.or (some (.node .composite t.text (.leaf .commandComposite c.text :: e.nodes)))

/-- What a rule does to the map. -/
theorem Rule.run_ok {values values' : Values} {r : Rule} (h : r.run values = .ok values')
    (n : Bytes) :
    values'.lookup n =
      if r.name = n then r.entry (values.lookup n) else values.lookup n := by
  have hdefine : ∀ (name : Bytes) (es : List Tree), define name es values = .ok values' →
      values'.lookup n = if name = n then
        (values.lookup n).or (some (.node .composite name es)) else values.lookup n := by
    intro name es hd
    rw [define_eq] at hd
    cases hd
    have hname : (Tree.node .composite name es).name = name := rfl
    rw [lookup_addValue, hname]
    by_cases hn : name = n
    · rw [if_pos hn, if_pos hn.symm]
    · rw [if_neg hn, if_neg fun heq => hn heq.symm, Option.or_none]
  cases r with
  | defined t e => exact hdefine t.text e.nodes h
  | definedWith t c e => exact hdefine t.text _ h
  | incremental t e =>
      rw [run, addIncrAlternative] at h
      cases hl : values.lookup t.text with
      | none =>
          rw [hl] at h
          cases h
      | some node =>
          rw [hl] at h
          cases h
          rw [lookup_map_snd (fun m u => if m = t.text then u.setSons (incrSons u.sons e.nodes)
            else u) n values, name, entry]
          by_cases hn : t.text = n
          · simp only [if_pos hn, if_pos hn.symm]
          · simp only [if_neg hn, if_neg fun heq : n = t.text => hn heq.symm, Option.map_id']

/-- The nodes of the map have sons. -/
def HasSons (values : Values) : Prop :=
  ∀ n t, values.lookup n = some t → ∃ ss, t = .node .composite n ss ∧ ss ≠ []

theorem incrSons_ne_nil (body e : List Tree) : incrSons body e ≠ [] := by
  unfold incrSons
  split <;> exact nofun

theorem HasSons.run {values values' : Values} {r : Rule} (hs : HasSons values)
    (h : r.run values = .ok values') : HasSons values' := by
  intro n t ht
  rw [r.run_ok h] at ht
  have hor : ∀ es : List Tree, es ≠ [] →
      (values.lookup n).or (some (.node .composite n es)) = some t →
      ∃ ss, t = .node .composite n ss ∧ ss ≠ [] := by
    intro es hes heq
    cases hl : values.lookup n with
    | none =>
        rw [hl] at heq
        cases heq
        exact ⟨es, rfl, hes⟩
    | some u =>
        rw [hl] at heq
        cases heq
        exact hs n _ hl
  split at ht
  · next hn =>
      subst hn
      cases r with
      | defined _ e => exact hor _ e.nodes_ne_nil ht
      | definedWith _ c e => exact hor (.leaf .commandComposite c.text :: e.nodes) nofun ht
      | incremental _ e =>
          obtain ⟨u, hu, rfl⟩ := Option.map_eq_some_iff.mp ht
          obtain ⟨ss, rfl, _⟩ := hs _ u hu
          exact ⟨_, rfl, incrSons_ne_nil _ _⟩
  · exact hs n t ht

theorem hasSons_rulelist {rules : List Rule} {values : Values} (h : rulelist rules = .ok values) :
    HasSons values := by
  induction rules using List.reverseRecOn generalizing values with
  | nil =>
      cases h
      intro n t ht
      cases ht
  | append_singleton rules r ih =>
      rw [rulelist_append] at h
      cases hr : rulelist rules with
      | error x =>
          rw [hr] at h
          cases h
      | ok v =>
          rw [hr] at h
          exact (ih hr).run h

theorem written_append (n : Bytes) (rules : List Rule) (r : Rule) :
    written n (rules ++ [r]) =
      if r.name = n then r.adds (written n rules) else written n rules := by
  rw [written, List.foldl_append]
  rfl

/-- One line keeps the alternatives as they are written if and only if it only
appends. -/
theorem asWritten_append_iff {rules : List Rule} {values values' : Values} {r : Rule}
    (hw : AsWritten rules values) (hs : HasSons values) (h : r.run values = .ok values') :
    AsWritten (rules ++ [r]) values' ↔ r.Appends values := by
  have hother : ∀ n, (r.name = n → ∀ t e, r ≠ .incremental t e) →
      (values'.lookup n).map (fun t => alternatives t.sons) = written n (rules ++ [r]) := by
    intro n hne
    rw [r.run_ok h, written_append]
    split
    · next hn =>
        rw [← hw n]
        cases r with
        | incremental t e => exact absurd rfl (hne hn t e)
        | defined t e => cases values.lookup n <;> rfl
        | definedWith t c e => cases values.lookup n <;> rfl
    · exact hw n
  cases r with
  | defined t e => exact ⟨fun _ => trivial, fun _ n => hother n fun _ _ _ => nofun⟩
  | definedWith t c e => exact ⟨fun _ => trivial, fun _ n => hother n fun _ _ _ => nofun⟩
  | incremental t e =>
      have hat : (values'.lookup t.text).map (fun t => alternatives t.sons) =
          written t.text (rules ++ [.incremental t e]) ↔
          (Rule.incremental t e).Appends values := by
        have hn : (Rule.incremental t e).name = t.text := rfl
        rw [Rule.run_ok h, written_append, ← hw t.text, if_pos hn, if_pos hn, Rule.Appends]
        cases hl : values.lookup t.text with
        | none => exact ⟨fun _ => nofun, fun _ => rfl⟩
        | some node =>
            obtain ⟨ss, rfl, hss⟩ := hs _ node hl
            simp only [Rule.entry, Rule.adds, Option.map_some, Option.some.injEq, Tree.setSons,
              Tree.sons, forall_eq']
            exact alternatives_incrSons_iff hss e.nodes_ne_nil
      refine ⟨fun hall => hat.mp (hall t.text), fun ha n => ?_⟩
      by_cases hn : t.text = n
      · exact hn ▸ hat.mpr ha
      · exact hother n fun heq => absurd heq hn

/-- In every state of the parser the alternatives of every rule are the ones of the
lines read so far, in their order, if and only if every `=/` line on the way adds
one alternative, to a rule that is no alternation or has only copies of it. -/
theorem alternatives_as_written_iff (rules : List Rule) :
    (∀ p values, p <+: rules → rulelist p = .ok values → AsWritten p values) ↔
      ∀ p r values, p ++ [r] <+: rules → rulelist p = .ok values → r.Appends values := by
  constructor
  · intro hall p r values hp hv
    have hpre : p <+: rules := (List.prefix_append p [r]).trans hp
    cases hr : r.run values with
    | ok values' =>
        have hrun : rulelist (p ++ [r]) = .ok values' := by
          rw [rulelist_append, hv]
          exact hr
        exact (asWritten_append_iff (hall p values hpre hv) (hasSons_rulelist hv) hr).mp
          (hall _ _ hp hrun)
    | error x =>
        cases r with
        | defined t e => trivial
        | definedWith t c e => trivial
        | incremental t e =>
            intro node hl
            rw [Rule.run, addIncrAlternative, hl] at hr
            cases hr
  · intro hall p
    induction p using List.reverseRecOn with
    | nil =>
        intro values _ hv n
        cases hv
        rfl
    | append_singleton p r ih =>
        intro values' hp hv'
        have hpre : p <+: rules := (List.prefix_append p [r]).trans hp
        rw [rulelist_append] at hv'
        cases hv : rulelist p with
        | error x =>
            rw [hv] at hv'
            cases hv'
        | ok values =>
            rw [hv] at hv'
            exact (asWritten_append_iff (ih values hpre hv) (hasSons_rulelist hv) hv').mpr
              (hall p r values hp hv)

/-- One quoted text as a concatenation. -/
def quotedText (text : Bytes) (h : ∀ c ∈ text, isText c = true) : Concatenation :=
  .repetition (.element (.literal (.charval (quoted text h))))

/-- After `page = "a" / "b"` the line `page =/ "c"` puts `"c"` in front. -/
theorem incremental_goes_first :
    ¬ ∀ (rules p : List Rule) (values : Values), p <+: rules → rulelist p = .ok values →
      AsWritten p values := by
  intro hall
  let page : Lexeme rulename :=
    ⟨ascii "page", mem_rulename.mpr ⟨112, ascii "age", rfl, List.all_eq_true.mp rfl, rfl⟩⟩
  let first : Rule := .defined page (.alternative
    (.concatenation (quotedText (ascii "a") (List.all_eq_true.mp rfl)))
    (quotedText (ascii "b") (List.all_eq_true.mp rfl)))
  let second : Rule :=
    .incremental page (.concatenation (quotedText (ascii "c") (List.all_eq_true.mp rfl)))
  have hpage := hall [first, second] [first, second] _ (List.prefix_refl _) rfl (ascii "page")
  cases hpage

end Stress

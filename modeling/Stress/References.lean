import Stress.Expansion
import Stress.Views

/-!
# References to a literal

A rule whose body is one literal, and a reference to it in the place of the literal.

The node of a reference sends what the literal sends, but its text is the name of the
rule and its number is read off this name (`ReturnAction::runAction`).  So the literal
can be put in the place of the reference where the command around it asks for the bytes
only, and elsewhere only if it has the name for its text and zero for its number
(`reference_transparent_iff`).
-/

namespace Stress

theorem Literal.kind_ne (l : Literal) : l.kind ≠ .commandComposite := by cases l <;> nofun

theorem leafState_views (kind : LeafKind) (i : Nat) (text : Bytes) :
    (leafState kind i text).getStringValue = (leafState kind 0 text).getStringValue ∧
      (leafState kind i text).getIntegerValue = (leafState kind 0 text).getIntegerValue := by
  cases kind <;> exact ⟨rfl, rfl⟩

/-! ## One reference in a tree -/

/-- The views a node asks its sons for, where `v` are the views it is asked for itself. -/
def Tree.reads (v : Views) : NodeKind → List Tree → Nat → Views
  | .composite, .leaf .commandComposite name :: _ => (commandAction name).reads
  | .composite, _ => fun _ => {}
  | .orComposite, _ => fun _ => v
  | .repeatComposite, _ => fun _ => {}

/-- What a `Composite` is asked for itself makes no difference to its sons. -/
theorem Tree.reads_composite (v v' : Views) (ts : List Tree) :
    Tree.reads v .composite ts = Tree.reads v' .composite ts := by
  cases ts with
  | nil => rfl
  | cons t ts =>
      cases t with
      | leaf kind name => cases kind <;> rfl
      | node => rfl

/-- A tree and the same tree with the literal in the place of one reference to `name`.
The node there is asked for the views `w`, and the whole tree for the views `v`. -/
inductive Tree.Puts (l : Literal) (name : Bytes) (w : Views) : Views → Tree → Tree → Prop where
  | here : Puts l name w w (.node .composite name []) (.leaf l.kind l.name)
  | son {v : Views} {kind : NodeKind} {n : Bytes} (before after : List Tree) {t u : Tree}
      (h : Puts l name w (Tree.reads v kind (before ++ t :: after) before.length) t u) :
      Puts l name w v (.node kind n (before ++ t :: after)) (.node kind n (before ++ u :: after))

/-- Trees that are the same but for the literal in the place of one reference. -/
def Tree.SameBut (l : Literal) (name : Bytes) (w v : Views) (t u : Tree) : Prop :=
  t = u ∨ Puts l name w v t u

/-- The map with another node for a rule. -/
def Values.replace (values : Values) (n : Bytes) (node : Tree) : Values :=
  values.map fun p => if p.1 = n then (p.1, node) else p

/-- A map of the parser, and the map with the literal in the place of one reference to the
rule `name`, whose body is this literal. -/
structure Values.Puts (l : Literal) (name : Bytes) (w : Views) (values values' : Values) :
    Prop where
  rule : values.lookup name = some (.node .composite name [.leaf l.kind l.name])
  body : ∃ n node node', values.lookup n = some node ∧ Tree.Puts l name w {} node node' ∧
    values' = values.replace n node'

theorem Values.lookup_replace (values : Values) (n m : Bytes) (node : Tree) :
    (values.replace n node).lookup m =
      if m = n then (values.lookup m).map fun _ => node else values.lookup m := by
  induction values with
  | nil => rw [replace, List.map_nil, List.lookup_nil, Option.map_none, ite_self]
  | cons p values ih =>
      have hcons : Values.replace (p :: values) n node =
          (if p.1 = n then (p.1, node) else p) :: Values.replace values n node := rfl
      rw [hcons]
      by_cases hp : p.1 = n
      · rw [if_pos hp, List.lookup_cons, List.lookup_cons, ih]
        by_cases hm : m = p.1
        · simp [hm, hp]
        · simp [beq_eq_false_iff_ne.mpr hm]
      · rw [if_neg hp, List.lookup_cons, List.lookup_cons, ih]
        by_cases hm : m = p.1
        · simp [hm, hp]
        · simp [beq_eq_false_iff_ne.mpr hm]

/-- The bodies of a rule in the two maps. -/
theorem Values.Puts.sameBut {l : Literal} {name : Bytes} {w : Views} {values values' : Values}
    (h : values.Puts l name w values') (m : Bytes) :
    Option.Rel (Tree.SameBut l name w {}) (values.lookup m) (values'.lookup m) := by
  obtain ⟨n, node, node', hn, hputs, rfl⟩ := h.body
  rw [Values.lookup_replace]
  by_cases hm : m = n
  · subst hm
    rw [if_pos rfl, hn]
    exact .some (.inr hputs)
  · rw [if_neg hm]
    cases values.lookup m with
    | none => exact .none
    | some t => exact .some (.inl rfl)

namespace Tree

variable {l : Literal} {name : Bytes} {w v : Views} {t u : Tree}

theorem Puts.source (h : Puts l name w v t u) (ht : t.Source) : u.Source := by
  induction h with
  | here => exact .leaf _ _
  | @son v kind n before after t u _ ih =>
      generalize hsons : before ++ t :: after = sons at ht
      cases ht with
      | reference => exact absurd hsons (List.append_ne_nil_of_right_ne_nil _ nofun)
      | inner hname _ hall =>
          rw [← hsons, List.forall_mem_append, List.forall_mem_cons] at hall
          refine .inner hname (List.append_ne_nil_of_right_ne_nil _ nofun) ?_
          rw [List.forall_mem_append, List.forall_mem_cons]
          exact ⟨hall.1, ih hall.2.1, hall.2.2⟩

theorem SameBut.source (h : SameBut l name w v t u) (ht : t.Source) : u.Source := by
  obtain rfl | h := h
  · exact ht
  · exact h.source ht

/-- The sons of a node are the same but for the reference. -/
theorem SameBut.node {kind : NodeKind} {n : Bytes} {sons : List Tree}
    (h : SameBut l name w v (.node kind n sons) u) :
    (sons = [] ∧ u = .leaf l.kind l.name ∧ kind = .composite ∧ n = name ∧ v = w) ∨
      ∃ sons', u = .node kind n sons' ∧ sons.length = sons'.length ∧
        ∀ (k : Nat) a b, sons[k]? = some a → sons'[k]? = some b →
          SameBut l name w (Tree.reads v kind sons k) a b := by
  obtain rfl | h := h
  · refine .inr ⟨sons, rfl, rfl, fun k a b ha hb => .inl ?_⟩
    rw [ha] at hb
    exact Option.some.inj hb
  · cases h with
    | here => exact .inl ⟨rfl, rfl, rfl, rfl, rfl⟩
    | @son _ _ _ before after t u h =>
        refine .inr ⟨before ++ u :: after, rfl, by simp, fun k a b ha hb => ?_⟩
        by_cases hk : k = before.length
        · subst hk
          rw [List.getElem?_append_right (Nat.le_refl _), Nat.sub_self] at ha hb
          cases ha
          cases hb
          exact .inr h
        · refine .inl ?_
          have hsame : (before ++ t :: after)[k]? = (before ++ u :: after)[k]? := by
            obtain hlt | hgt := Nat.lt_or_gt_of_ne hk
            · rw [List.getElem?_append_left hlt, List.getElem?_append_left hlt]
            · rw [List.getElem?_append_right hgt.le, List.getElem?_append_right hgt.le]
              obtain ⟨j, hj⟩ := Nat.exists_eq_succ_of_ne_zero (Nat.sub_ne_zero_of_lt hgt)
              rw [hj]
              rfl
          rw [hsame, hb] at ha
          exact (Option.some.inj ha).symm

end Tree

theorem Values.Puts.source {l : Literal} {name : Bytes} {w : Views} {values values' : Values}
    (h : values.Puts l name w values') (hs : values.Source) : values'.Source := by
  intro m node' hm
  have hbut := h.sameBut m
  rw [hm] at hbut
  cases hl : values.lookup m with
  | none => rw [hl] at hbut; cases hbut
  | some node =>
      rw [hl] at hbut
      cases hbut with
      | some hbut =>
          obtain ⟨hname, sons, rfl, hne, hsons⟩ := hs m node hl
          obtain ⟨hnil, _⟩ | ⟨sons', rfl, hlen, hson⟩ := hbut.node
          · exact absurd hnil hne
          · refine ⟨hname, sons', rfl, ?_, fun u hu => ?_⟩
            · rintro rfl
              exact hne (List.length_eq_zero_iff.mp hlen)
            · obtain ⟨k, hk⟩ := List.mem_iff_getElem?.mp hu
              have hlt : k < sons.length := hlen ▸ (List.getElem?_eq_some_iff.mp hk).1
              exact (hson k _ u (List.getElem?_eq_getElem hlt) hk).source
                (hsons _ (List.getElem_mem hlt))

/-! ## The expanded trees -/

theorem Composite.shape_eq_leaf {c : Composite} {kind : LeafKind} {name : Bytes}
    (h : c.shape = .leaf kind name) : ∃ i, c = .leaf kind i name := by
  cases c with
  | leaf kind i name =>
      cases h
      exact ⟨i, rfl⟩
  | node => cases h

theorem Composite.shape_eq_node {c : Composite} {kind : NodeKind} {name : Bytes} {ts : List Tree}
    (h : c.shape = .node kind name ts) :
    ∃ id cs, c = .node kind id name cs ∧ cs.map shape = ts := by
  cases c with
  | leaf => cases h
  | node kind id name cs =>
      rw [shape, shapes_eq] at h
      cases h
      exact ⟨id, cs, rfl, rfl⟩

/-- The sons a node gets in the expansion, before they are expanded themselves. -/
def Values.sonsOf (values : Values) (name : Bytes) (sons : List Tree) : List Tree :=
  if sons = [] then ((values.lookup name).map Tree.sons).getD [] else sons

theorem Expands.node {values : Values} {kind : NodeKind} {name : Bytes} {sons : List Tree}
    {u : Tree} (h : Expands values (.node kind name sons) u) :
    ∃ us, u = .node kind name us ∧
      List.Forall₂ (Expands values) (values.sonsOf name sons) us := by
  cases h with
  | reference hrule hsons =>
      refine ⟨_, rfl, ?_⟩
      rw [Values.sonsOf, if_pos rfl, hrule]
      exact hsons
  | undefined hrule =>
      refine ⟨[], rfl, ?_⟩
      rw [Values.sonsOf, if_pos rfl, hrule]
      exact .nil
  | inner hne hsons =>
      refine ⟨_, rfl, ?_⟩
      rw [Values.sonsOf, if_neg hne]
      exact hsons

/-- The strategy of an expanded node is read off the node before. -/
theorem reads_factoryAction {values : Values} {v : Views} {ts : List Tree} {cs : List Composite}
    (h : List.Forall₂ (Expands values) ts (cs.map Composite.shape)) :
    (factoryAction cs).reads = Tree.reads v .composite ts := by
  cases cs with
  | nil =>
      cases h
      rfl
  | cons c cs =>
      rw [List.map_cons] at h
      generalize hc : c.shape = u at h
      cases h with
      | @cons t _ _ _ ht _ =>
          cases t with
          | leaf kind name =>
              cases ht
              obtain ⟨i, rfl⟩ := Composite.shape_eq_leaf hc
              cases kind <;> rfl
          | node kind name sons =>
              obtain ⟨us, rfl, _⟩ := ht.node
              obtain ⟨id, ds, rfl, _⟩ := Composite.shape_eq_node hc
              rfl

section Expansion

variable {l : Literal} {name : Bytes} {w : Views} {values values' : Values}

/-- The sons of a node, once rules are taken in, are the same but for the reference. -/
theorem Values.Puts.sonsOf (hp : values.Puts l name w values') (hs : values.Source) {v : Views}
    {kind : NodeKind} {n : Bytes} {sons sons' : List Tree}
    (ht : (Tree.node kind n sons).Source) (hlen : sons.length = sons'.length)
    (hson : ∀ (k : Nat) a b, sons[k]? = some a → sons'[k]? = some b →
      Tree.SameBut l name w (Tree.reads v kind sons k) a b) :
    (values.sonsOf n sons).length = (values'.sonsOf n sons').length ∧
      (∀ t ∈ values.sonsOf n sons, t.Source) ∧
      ∀ (k : Nat) a b, (values.sonsOf n sons)[k]? = some a → (values'.sonsOf n sons')[k]? = some b →
        Tree.SameBut l name w (Tree.reads v kind (values.sonsOf n sons) k) a b := by
  cases ht with
  | inner _ hne hall =>
      have hne' : sons' ≠ [] := by
        rintro rfl
        exact hne (List.length_eq_zero_iff.mp hlen)
      rw [Values.sonsOf, Values.sonsOf, if_neg hne, if_neg hne']
      exact ⟨hlen, hall, hson⟩
  | reference =>
      have hnil : sons' = [] := List.length_eq_zero_iff.mp hlen.symm
      have hbut := hp.sameBut n
      rw [Values.sonsOf, Values.sonsOf, if_pos rfl, if_pos hnil]
      obtain ⟨hl, hl'⟩ | ⟨node, node', hl, hl', hbut⟩ := rel_cases hbut
      · rw [hl, hl']
        exact ⟨rfl, nofun, fun k a b ha => by cases ha⟩
      · rw [hl, hl']
        obtain ⟨_, body, rfl, hne, hall⟩ := hs n node hl
        obtain ⟨hnil, _⟩ | ⟨body', rfl, hlen', hbody⟩ := hbut.node
        · exact absurd hnil hne
        · refine ⟨hlen', hall, fun k a b ha hb => ?_⟩
          rw [Tree.reads_composite v {}]
          exact hbody k a b ha hb

/-- The expanded body of a rule of one literal. -/
theorem shapes_literal {kind : LeafKind} {text : Bytes} {n : Bytes} {cs : List Composite}
    (h : List.Forall₂ (Expands values)
      (((some (Tree.node .composite n [.leaf kind text])).map Tree.sons).getD [])
      (cs.map Composite.shape)) : ∃ i, cs = [.leaf kind i text] := by
  generalize hu : cs.map Composite.shape = us at h
  cases h with
  | cons hleaf hnil =>
      cases hleaf
      cases hnil
      obtain ⟨c, rfl, hc⟩ := List.map_eq_singleton_iff.mp hu
      obtain ⟨i, rfl⟩ := Composite.shape_eq_leaf hc
      exact ⟨i, rfl⟩

theorem getElem?_of_forall₂ {ts : List Tree} {cs : List Composite}
    (h : List.Forall₂ (Expands values) ts (cs.map Composite.shape)) {k : Nat} {c : Composite}
    (hc : cs[k]? = some c) : ∃ t, ts[k]? = some t ∧ Expands values t c.shape := by
  induction cs generalizing ts k with
  | nil => cases hc
  | cons d cs ih =>
      rw [List.map_cons] at h
      cases h with
      | @cons t _ _ _ ht hts =>
          cases k with
          | zero =>
              cases hc
              exact ⟨t, rfl, ht⟩
          | succ k => exact ih hts hc

/-- The expansions of the two maps can stand for each other, if the views asked for at the
reference are those of the literal. -/
theorem Values.Puts.standsFor (hp : values.Puts l name w values') (hs : values.Source)
    (hviews : ShowsName w l.kind l.name name) {c c' : Composite} {v : Views} {t t' : Tree}
    (ht : t.Source) (hbut : Tree.SameBut l name w v t t') (hc : Expands values t c.shape)
    (hc' : Expands values' t' c'.shape) : StandsFor v c c' := by
  induction c using Composite.induction generalizing c' v t t' with
  | h c ih =>
      cases t with
      | leaf kind text =>
          obtain rfl | hputs := hbut
          · generalize hu : c.shape = u at hc
            generalize hu' : c'.shape = u' at hc'
            cases hc
            cases hc'
            obtain ⟨i, rfl⟩ := Composite.shape_eq_leaf hu
            obtain ⟨i', rfl⟩ := Composite.shape_eq_leaf hu'
            exact .leaf kind i i' text
          · cases hputs
      | node kind n sons =>
          obtain ⟨us, hus, hall⟩ := hc.node
          obtain ⟨id, cs, rfl, rfl⟩ := Composite.shape_eq_node hus
          obtain ⟨rfl, rfl, rfl, rfl, rfl⟩ | ⟨sons', rfl, hlen, hson⟩ := hbut.node
          · rw [Values.sonsOf, if_pos rfl, hp.rule] at hall
            generalize hu' : c'.shape = u' at hc'
            cases hc'
            obtain ⟨i', rfl⟩ := Composite.shape_eq_leaf hu'
            obtain ⟨i, rfl⟩ := shapes_literal hall
            exact .inside id i i' l.kind_ne hviews
          · obtain ⟨us', hus', hall'⟩ := hc'.node
            obtain ⟨id', cs', rfl, rfl⟩ := Composite.shape_eq_node hus'
            obtain ⟨hlen, hsource, hson⟩ := hp.sonsOf hs ht hlen hson
            have hlen' : cs.length = cs'.length := by
              rw [← List.length_map (f := Composite.shape), ← hall.length_eq, hlen, hall'.length_eq,
                List.length_map]
            have hstand : ∀ (k : Nat) d d', cs[k]? = some d → cs'[k]? = some d' →
                StandsFor (Tree.reads v kind (values.sonsOf n sons) k) d d' := by
              intro k d d' hd hd'
              obtain ⟨a, ha, had⟩ := getElem?_of_forall₂ hall hd
              obtain ⟨b, hb, hbd⟩ := getElem?_of_forall₂ hall' hd'
              exact ih d (List.mem_of_getElem? hd) (hsource a (List.mem_of_getElem? ha))
                (hson k a b ha hb) had hbd
            cases kind with
            | composite =>
                rw [← reads_factoryAction (v := v) hall] at hstand
                exact .composite (fun _ => ⟨fun _ => rfl, fun _ => rfl⟩) hlen' hstand
            | orComposite => exact .orComposite hlen' hstand
            | repeatComposite => exact .repeatComposite hlen' hstand

end Expansion

theorem expands_of_expand {values : Values} {root : Bytes} {fuel : Nat} {b : Built Tree}
    (hs : values.Source) (h : expand values root fuel = some b) :
    Expands values (.node .composite root []) b.tree := by
  have hacc := acc_of_expand hs h
  obtain ⟨node, hrule, _⟩ := Option.bind_eq_some_iff.mp h
  obtain ⟨fuel', b', hb', hcorrect⟩ := expand_correct hs hrule hacc
  rw [expand_unique h hb']
  exact hcorrect.expands

/-! ## What runs send -/

/-- The data handed to sockets so far. -/
def Env.sentData (e : Env) : List Bytes :=
  e.trace.filterMap fun
    | .send data _ => some data
    | .read _ _ => none

/-- What a run of the tree sends, if it returns. -/
def runSends (P : Platform) (sel : Nat → Nat) (c : Composite) (e : Env) : Option (List Bytes) :=
  (eval P sel c e).toOption.map fun r => r.2.sentData

/-- The runs of two trees send the same where they take the same alternatives. -/
def SameSends (t u : Tree) : Prop :=
  ∀ (P : Platform) (c c' : Composite) (sel sel' : Nat → Nat) (e : Env), c.shape = t →
    c'.shape = u → c.choices sel = c'.choices sel' → runSends P sel c e = runSends P sel' c' e

/-- The literal can be put in the place of every reference to its rule `name` that is asked
for no other views than `v`, in every map of a grammar whose expansion ends. -/
def Transparent (l : Literal) (name : Bytes) (v : Views) : Prop :=
  ∀ (values values' : Values) (w : Views), values.Parsed → values.Puts l name w values' →
    (w.string = true → v.string = true) → (w.integer = true → v.integer = true) →
    ∀ root fuel fuel' b b', expand values root fuel = some b →
      expand values' root fuel' = some b' → SameSends b.tree b'.tree

theorem StandsFor.sameSends {t u : Tree}
    (h : ∀ c c' : Composite, c.shape = t → c'.shape = u → StandsFor {} c c') : SameSends t u := by
  intro P c c' sel sel' e hc hc' hsel
  have hsim := (h c c' hc hc').alike (P := P) hsel e e (.refl e)
  rw [runSends, runSends]
  cases hrun : eval P sel c e with
  | error x =>
      cases hrun' : eval P sel' c' e with
      | error y => rfl
      | ok r => rw [hrun, hrun'] at hsim; exact hsim.elim
  | ok r =>
      cases hrun' : eval P sel' c' e with
      | error y => rw [hrun, hrun'] at hsim; exact hsim.elim
      | ok r' =>
          rw [hrun, hrun'] at hsim
          change some r.2.sentData = some r'.2.sentData
          rw [Env.sentData, Env.sentData, hsim.2.trace]

/-- A name of a rule is no number. -/
theorem nameValue_of_isName {name : Bytes} (h : IsName name) : nameValue name = 0 := by
  cases name with
  | nil => cases h
  | cons c s =>
      have hc : isLetter c = true := h
      have hplain : ((bytesOf isLetter).all fun c => c != 37 && c != 0 && !isSpace c && c != 45 &&
          c != 43 && !isDigit c) = true := by decide +kernel
      have hall := List.all_eq_true.mp hplain c (mem_bytesOf.mpr hc)
      simp only [Bool.and_eq_true, bne_iff_ne, ne_eq, Bool.not_eq_true'] at hall
      obtain ⟨⟨⟨⟨⟨hpercent, hzero⟩, hspace⟩, hminus⟩, hplus⟩, hdigit⟩ := hall
      have hsigned : ∀ s, readSigned (c :: s) = 0 := by
        intro s
        unfold readSigned
        split
        · next heq => cases heq; exact absurd rfl hminus
        · next heq => cases heq; exact absurd rfl hplus
        · rw [readNat, List.takeWhile_cons_of_neg (by rw [hdigit]; exact Bool.false_ne_true)]
          rfl
      rw [nameValue, if_neg (by simpa using hpercent), atoi,
        List.takeWhile_cons_of_pos (by simpa using hzero),
        List.dropWhile_cons_of_neg (by rw [hspace]; exact Bool.false_ne_true), hsigned]
      rfl

theorem transparent_of_showsName {l : Literal} {name : Bytes} {v : Views}
    (hstring : v.string = true → (leafState l.kind 0 l.name).getStringValue = name)
    (hinteger : v.integer = true →
      (leafState l.kind 0 l.name).getIntegerValue = .ok (nameValue name)) :
    Transparent l name v := by
  intro values values' w hparsed hputs hws hwi root fuel fuel' b b' hb hb'
  have hs := hparsed.source
  obtain ⟨node, hrule, _⟩ := Option.bind_eq_some_iff.mp hb
  refine StandsFor.sameSends fun c c' hc hc' => ?_
  refine hputs.standsFor hs ⟨fun hw => hstring (hws hw), fun hw => hinteger (hwi hw)⟩
    (.reference (hs root node hrule).1) (.inl rfl) ?_ ?_
  · rw [hc]
    exact expands_of_expand hs hb
  · rw [hc']
    exact expands_of_expand (hputs.source hs) hb'

/-! ## A grammar that shows the views -/

section Probe

variable {P : Platform} {sel : Nat → Nat}

/-- A rule that sends what is stored under the text of the literal, and what a command makes
of the node `hole`.  The rule of the literal stands behind. -/
def probeBody (cmd : Bytes) (l : Literal) (hole last : Tree) : List Tree :=
  [.node .composite (ascii "()")
    [.leaf .commandComposite (ascii "<%UDP_send%>"),
     .node .composite (ascii "()")
      [.leaf .commandComposite (ascii "<%Memorize%>"), .leaf l.kind l.name,
       .leaf .stringLeaf (ascii "\\\"x\\\"")],
     .node .composite (ascii "()")
      [.leaf .commandComposite cmd, hole, .leaf .stringLeaf (ascii "\\\"y\\\"")]],
   last]

/-- The map of the grammar.  The name of the first rule is longer by one letter. -/
def probeValues (cmd : Bytes) (l : Literal) (name : Bytes) (hole : Tree) : Values :=
  [(name ++ [97], .node .composite (name ++ [97])
      (probeBody cmd l hole (.node .composite name []))),
   (name, .node .composite name [.leaf l.kind l.name])]

theorem expand_probe (cmd : Bytes) (l : Literal) {name : Bytes} (hname : IsName name)
    {hole hole' : Tree}
    (h : hole = .node .composite name [] ∧ hole' = .node .composite name [.leaf l.kind l.name] ∨
      hole = .leaf l.kind l.name ∧ hole' = hole) :
    ∃ b, expand (probeValues cmd l name hole) (name ++ [97]) 5 = some b ∧
      b.tree = .node .composite (name ++ [97])
        (probeBody cmd l hole' (.node .composite name [.leaf l.kind l.name])) := by
  have hne : name ++ [97] ≠ name := by simp
  have hgroup : ascii "()" ≠ name := by
    rintro rfl
    exact absurd hname (by decide)
  have hgroup' : ascii "()" ≠ name ++ [97] := by
    cases name with
    | nil => cases hname
    | cons c s =>
        intro heq
        have hc : (40 : UInt8) = c := (List.cons.inj heq).1
        subst hc
        exact absurd (show isLetter 40 = true from hname) (by decide)
  have hbeq := beq_eq_false_iff_ne.mpr hne.symm
  have hbeq₁ := beq_eq_false_iff_ne.mpr hgroup
  have hbeq₂ := beq_eq_false_iff_ne.mpr hgroup'
  obtain ⟨rfl, rfl⟩ | ⟨rfl, rfl⟩ := h
  · simp [expand, probeValues, probeBody, buildTree, buildSons, sonsToBuild,
      List.lookup_cons, hbeq, hbeq₁, hbeq₂, Tree.sons]
  · simp [expand, probeValues, probeBody, buildTree, buildSons, sonsToBuild,
      List.lookup_cons, hbeq, hbeq₁, hbeq₂, Tree.sons]

theorem getStringToSend_memorizedState (id : Nat) (value : Bytes) (result : List State) :
    ((memorizedState P id value).push result).getStringToSend = value := by
  rw [State.getStringToSend_eq]
  exact List.take_length

/-- A name that is not taken is bound to the value. -/
theorem runMemorize_new (P : Platform) (id : Nat) (a t : State) {s : State} {e : Env}
    (h : e.vars.lookup s.getStringValue = none) :
    ∃ r, runMemorize P id [a, s, t] e = .ok (r, { e with
        vars := (s.getStringValue, .live (t.bind s.getStringValue)) :: e.vars }) ∧
      r.getStringToSend = t.getStringToSend := by
  have hset : setVariable s.getStringValue t e = .ok (t.bind s.getStringValue, { e with
      vars := (s.getStringValue, .live (t.bind s.getStringValue)) :: e.vars }) := by
    rw [setVariable, h]
    rfl
  refine ⟨(memorizedState P id (t.bind s.getStringValue).getStringToSend).push
    [a, s, t.bind s.getStringValue], ?_, ?_⟩
  · have hfirst : argument [a, s, t] 1 = pure s := rfl
    have hsecond : argument [a, s, t] 2 = pure t := rfl
    rw [runMemorize, hfirst, pure_bind, Comp.bind_eq, checkVariable, h]
    simp only [Option.isSome_none, Bool.false_eq_true, if_false, hsecond, pure_bind]
    rw [Comp.bind_eq, hset]
    rfl
  · rw [getStringToSend_memorizedState, State.getStringToSend_bind]

/-- A name that is taken gives the value it has. -/
theorem runMemorize_bound (P : Platform) (id : Nat) (a t : State) {s u : State} {e : Env}
    (h : e.vars.lookup s.getStringValue = some (.live u)) :
    ∃ r, runMemorize P id [a, s, t] e = .ok (r, e) ∧ r.getStringToSend = u.getStringToSend := by
  have hget : getVariable s.getStringValue e = .ok (u, e) := by
    rw [getVariable, h]
  refine ⟨(memorizedState P id u.getStringToSend).push [a, s, t], ?_,
    getStringToSend_memorizedState _ _ _⟩
  have hfirst : argument [a, s, t] 1 = pure s := rfl
  rw [runMemorize, hfirst, pure_bind, Comp.bind_eq, checkVariable, h]
  simp only [Option.isSome_some, if_true]
  rw [Comp.bind_eq, hget, ← update_setRawValue]
  rfl

/-- The sum with a literal that is no number. -/
theorem runAddition_letter (id i j : Nat) (s : State) (e : Env) :
    (runAddition id [State.okState i, s, leafState .stringLeaf j (ascii "\\\"y\\\"")] e) =
      match s.getIntegerValue with
      | .error x => .error x
      | .ok n => if intMin ≤ n ∧ n ≤ intMax
          then .ok ((State.valueIntState id).update (StateData.setIntegerValue n), e)
          else .error .intOverflow := by
  have hletter : (leafState .stringLeaf j (ascii "\\\"y\\\"")).getIntegerValue = .ok 0 := rfl
  have hok : (State.okState i).getIntegerValue = .ok 0 := rfl
  rw [runAddition, sumIntegers, hok]
  simp only [sumIntegers]
  cases s.getIntegerValue with
  | error x => rfl
  | ok n =>
      simp only [hletter, Int.zero_add, Int.add_zero]
      by_cases hn : intMin ≤ n ∧ n ≤ intMax
      · simp only [hn, and_self, if_true]
        rfl
      · simp only [if_neg hn]
        rfl

/-- The send of the grammar. -/
def probeSend (cmd : Bytes) (l : Literal) (hole : Composite) : Composite :=
  .node .composite 1 (ascii "()")
    [.leaf .commandComposite 2 (ascii "<%UDP_send%>"),
     .node .composite 3 (ascii "()")
      [.leaf .commandComposite 4 (ascii "<%Memorize%>"), .leaf l.kind 5 l.name,
       .leaf .stringLeaf 6 (ascii "\\\"x\\\"")],
     .node .composite 7 (ascii "()")
      [.leaf .commandComposite 8 cmd, hole, .leaf .stringLeaf 9 (ascii "\\\"y\\\"")]]

/-- The tree of the grammar. -/
def probe (cmd : Bytes) (l : Literal) (name : Bytes) (hole : Composite) : Composite :=
  .node .composite 0 (name ++ [97])
    [probeSend cmd l hole, .node .composite 10 name [.leaf l.kind 11 l.name]]

theorem shape_probe (cmd : Bytes) (l : Literal) (name : Bytes) (hole : Composite) :
    (probe cmd l name hole).shape = .node .composite (name ++ [97])
      (probeBody cmd l hole.shape (.node .composite name [.leaf l.kind l.name])) := rfl

/-- The environment once the text of the literal is bound to `x`. -/
def probeEnv (l : Literal) : Env :=
  let var := (leafState l.kind 0 l.name).getStringValue
  { vars := [(var, .live ((leafState .stringLeaf 6 (ascii "\\\"x\\\"")).bind var))] }

theorem eval_memorize (P : Platform) (sel : Nat → Nat) (l : Literal) :
    ∃ r, eval P sel (.node .composite 3 (ascii "()")
        [.leaf .commandComposite 4 (ascii "<%Memorize%>"), .leaf l.kind 5 l.name,
         .leaf .stringLeaf 6 (ascii "\\\"x\\\"")]) {} = .ok (r, probeEnv l) ∧
      r.getStringToSend = [120] := by
  have htext : (leafState l.kind 5 l.name).getStringValue =
      (leafState l.kind 0 l.name).getStringValue := by
    cases l <;> rfl
  obtain ⟨r, hrun, hwire⟩ := runMemorize_new P 3 (State.okState 4)
    (leafState .stringLeaf 6 (ascii "\\\"x\\\"")) (s := leafState l.kind 5 l.name) (e := {}) rfl
  refine ⟨r, ?_, hwire.trans (by decide)⟩
  rw [eval_command (c := .memorizeCommand) (by decide) rfl rfl]
  rw [htext] at hrun
  exact hrun

variable {cmd : Bytes} {c : Command} {l : Literal} {name : Bytes} {hole : Composite} {s : State}

theorem eval_reference (P : Platform) (sel : Nat → Nat) (l : Literal) (name : Bytes) (id i : Nat) :
    ∃ s, (∀ e, eval P sel (.node .composite id name [.leaf l.kind i l.name]) e = .ok (s, e)) ∧
      s.isFailValue = false ∧ s.getStringValue = name ∧
      s.getIntegerValue = .ok (nameValue name) := by
  refine ⟨((State.okState id).update (StateData.setStringValue name)).push
    [leafState l.kind i l.name], fun e => ?_, rfl, rfl, rfl⟩
  rw [StandsFor.eval_around l.kind_ne]
  rfl

variable (hc : commandAction cmd = .command c) (husage : c.usage 3 = pure ())
  (hhole : ∀ e, eval P sel hole e = .ok (s, e))

include hc husage hhole

/-- The send runs both commands, and sends what they give. -/
theorem eval_probeSend : ∃ sent : State → Env → State, (∀ r e, (sent r e).isFailValue = false) ∧
    eval P sel (probeSend cmd l hole) {} =
      match c.finish P 7 (ascii "()") [State.okState 8, s,
        leafState .stringLeaf 9 (ascii "\\\"y\\\"")] (probeEnv l) with
      | .error x => .error x
      | .ok (r, e) =>
          if intMax < (120 :: r.getStringToSend).length then .error .intOverflow
          else .ok (sent r e, e.sent (120 :: r.getStringToSend)) := by
  obtain ⟨r₀, hmemorize, hwire⟩ := eval_memorize P sel l
  have hsons : ∀ e, evalSons P sel [hole, .leaf .stringLeaf 9 (ascii "\\\"y\\\"")] e =
      .ok ([s, leafState .stringLeaf 9 (ascii "\\\"y\\\"")], e) := by
    intro e
    rw [evalSons, Comp.bind_eq, hhole]
    rfl
  have hsend : commandAction (ascii "<%UDP_send%>") = .sendAction .udp := by decide
  refine ⟨fun r e => sentState 1 (120 :: r.getStringToSend)
    (e.sends.headD (120 :: r.getStringToSend).length) [State.okState 2, r₀, r], fun r e => ?_, ?_⟩
  · unfold sentState
    rw [State.isFailValue, State.setPacketValue, State.setStateValue_data]
    rfl
  rw [probeSend, eval, strategyOf, factoryAction, hsend, runAction, sendAction, evalSons, eval,
    pure_bind, evalSons]
  simp only [bind_assoc]
  rw [Comp.bind_eq, hmemorize]
  simp only [evalSons, bind_assoc, pure_bind]
  rw [Comp.bind_eq, eval_command hc (hsons _) husage]
  cases c.finish P 7 (ascii "()") _ (probeEnv l) with
  | error x => rfl
  | ok r =>
      have hdata : dataToSend [State.okState 2, r₀, r.1] = 120 :: r.1.getStringToSend := by
        rw [dataToSend, List.tail_cons, List.flatMap_cons, List.flatMap_singleton, hwire]
        rfl
      have hresult : [leafState .commandComposite 2 (ascii "<%UDP_send%>"), r₀, r.1] =
          [State.okState 2, r₀, r.1] := rfl
      simp only [hresult, hdata]
      split
      · rfl
      · rw [liftEnv_env]
        rfl

theorem runSends_probe_ok {r : State} {e : Env}
    (hfinish : c.finish P 7 (ascii "()") [State.okState 8, s,
      leafState .stringLeaf 9 (ascii "\\\"y\\\"")] (probeEnv l) = .ok (r, e))
    (htrace : e.trace = []) (hle : (r.getStringToSend.length : Int) < intMax) :
    runSends P sel (probe cmd l name hole) {} = some [120 :: r.getStringToSend] := by
  obtain ⟨sent, hsent, hsend⟩ := eval_probeSend (l := l) hc husage hhole
  rw [hfinish] at hsend
  have hlen : ¬ (intMax < (120 :: r.getStringToSend).length) := by
    rw [List.length_cons]
    omega
  simp only [if_neg hlen] at hsend
  obtain ⟨t, ht, hok, _⟩ := eval_reference P sel l name 10 11
  have hsons : evalSonsReturn P sel [probeSend cmd l hole,
      .node .composite 10 name [.leaf l.kind 11 l.name]] {} =
      .ok ([sent r e, t], e.sent (120 :: r.getStringToSend)) := by
    rw [evalSonsReturn, Comp.bind_eq, hsend]
    simp only [hsent, Bool.false_eq_true, if_false]
    rw [evalSonsReturn, bind_assoc, Comp.bind_eq, ht]
    simp only [hok]
    rfl
  rw [runSends, probe, eval, strategyOf, probeSend, factoryAction, ← probeSend, runAction]
  · rw [returnAction_eq hsons rfl]
    change some (Env.sentData _) = _
    rw [Env.sentData, Env.sent, htrace]
    rfl
  · intro i n tail h
    cases h

theorem runSends_probe_error {x : Fault}
    (hfinish : c.finish P 7 (ascii "()") [State.okState 8, s,
      leafState .stringLeaf 9 (ascii "\\\"y\\\"")] (probeEnv l) = .error x) :
    runSends P sel (probe cmd l name hole) {} = none := by
  obtain ⟨_, _, hsend⟩ := eval_probeSend (l := l) hc husage hhole
  rw [hfinish] at hsend
  have hsons : evalSonsReturn P sel [probeSend cmd l hole,
      .node .composite 10 name [.leaf l.kind 11 l.name]] {} = .error x := by
    rw [evalSonsReturn, Comp.bind_eq, hsend]
  rw [runSends, probe, eval, strategyOf, probeSend, factoryAction, ← probeSend, runAction]
  · rw [returnAction, Comp.bind_eq, hsons]
    rfl
  · intro i n tail h
    cases h

end Probe

theorem mem_command_of_rmatch {text : Bytes} (h : command.rmatch text = true) :
    text ∈ command.matches' := (RegularExpression.rmatch_iff_matches' _ _).mp h

theorem parsed_probe (name : Lexeme rulename) (l : Literal) {cmd : Bytes}
    (hcmd : cmd ∈ command.matches') :
    (probeValues cmd l name.text (.node .composite name.text [])).Parsed := by
  have hroot : name.text ++ [97] ∈ rulename.matches' := by
    obtain ⟨c, s, hc, hs, htext⟩ := mem_rulename.mp name.mem
    refine mem_rulename.mpr ⟨c, s ++ [97], hc, ?_, by rw [htext]; rfl⟩
    exact List.forall_mem_append.mpr ⟨hs, List.forall_mem_singleton.mpr (by decide)⟩
  have hgroup : ∀ (c : Lexeme command) (ts : List Tree), (∀ t ∈ ts, t.Parsed) →
      (Tree.node .composite (ascii "()") (.leaf .commandComposite c.text :: ts)).Parsed :=
    fun c ts hts => .group (some c) (by decide) nofun hts
  have hsend : ascii "<%UDP_send%>" ∈ command.matches' :=
    mem_command_of_rmatch (by decide +kernel)
  have hmemorize : ascii "<%Memorize%>" ∈ command.matches' :=
    mem_command_of_rmatch (by decide +kernel)
  have hbody : ∀ t ∈ probeBody cmd l (.node .composite name.text [])
      (.node .composite name.text []), t.Parsed := by
    rw [probeBody, List.forall_mem_cons, List.forall_mem_singleton]
    refine ⟨hgroup ⟨_, hsend⟩ _ ?_, .reference name⟩
    rw [List.forall_mem_cons, List.forall_mem_singleton]
    refine ⟨hgroup ⟨_, hmemorize⟩ _ ?_, hgroup ⟨cmd, hcmd⟩ _ ?_⟩
    · rw [List.forall_mem_cons, List.forall_mem_singleton]
      exact ⟨.literal l, .literal (.charval (quoted (ascii "x") (List.all_eq_true.mp rfl)))⟩
    · rw [List.forall_mem_cons, List.forall_mem_singleton]
      exact ⟨.reference name, .literal (.charval (quoted (ascii "y") (List.all_eq_true.mp rfl)))⟩
  intro n node hl
  rw [probeValues, List.lookup_cons] at hl
  cases hn : n == name.text ++ [97] with
  | true =>
      rw [hn] at hl
      cases hl
      exact ⟨⟨_, hroot⟩, none, probeBody _ _ _ _, eq_of_beq hn, by rw [eq_of_beq hn]; rfl, nofun,
        hbody⟩
  | false =>
      rw [hn] at hl
      simp only [List.lookup_cons, List.lookup_nil] at hl
      cases hn' : n == name.text with
      | true =>
          rw [hn'] at hl
          cases hl
          exact ⟨name, none, [.leaf l.kind l.name], eq_of_beq hn', by rw [eq_of_beq hn']; rfl,
            nofun, List.forall_mem_singleton.mpr (.literal l)⟩
      | false => rw [hn'] at hl; cases hl

/-- The grammar, and the grammar with the literal in the place of the node `hole`. -/
theorem puts_probe (l : Literal) (name cmd : Bytes) :
    (probeValues cmd l name (.node .composite name [])).Puts l name
      ((commandAction cmd).reads 1) (probeValues cmd l name (.leaf l.kind l.name)) := by
  have hne : name ≠ name ++ [97] := by simp
  constructor
  · rw [probeValues, List.lookup_cons, beq_eq_false_iff_ne.mpr hne]
    exact List.lookup_cons_self
  · refine ⟨name ++ [97], .node .composite (name ++ [97])
      (probeBody cmd l (.node .composite name []) (.node .composite name [])),
      .node .composite (name ++ [97])
        (probeBody cmd l (.leaf l.kind l.name) (.node .composite name [])),
      List.lookup_cons_self, ?_, ?_⟩
    · exact .son [] _ (.son [_, _] [] (.son [.leaf .commandComposite cmd] _ .here))
    · rw [probeValues, probeValues, Values.replace, List.map_cons, List.map_singleton,
        if_pos rfl, if_neg hne]

/-! ## The exact condition -/

section Exact

variable {name : Lexeme rulename} {l : Literal} {v : Views}

/-- What transparency says of the grammar above. -/
theorem Transparent.probe (h : Transparent l name.text v) {cmd : Bytes}
    (hcmd : cmd ∈ command.matches')
    (hstring : ((commandAction cmd).reads 1).string = true → v.string = true)
    (hinteger : ((commandAction cmd).reads 1).integer = true → v.integer = true) :
    runSends ⟨id, 0⟩ (fun _ => 0)
        (probe cmd l name.text (.node .composite 12 name.text [.leaf l.kind 13 l.name])) {} =
      runSends ⟨id, 0⟩ (fun _ => 0) (probe cmd l name.text (.leaf l.kind 12 l.name)) {} := by
  obtain ⟨b, hb, htree⟩ := expand_probe cmd l (isName_rulename name)
    (.inl ⟨rfl, rfl⟩)
  obtain ⟨b', hb', htree'⟩ := expand_probe cmd l (isName_rulename name)
    (.inr ⟨rfl, rfl⟩)
  refine h _ _ _ (parsed_probe name l hcmd) (puts_probe l name.text cmd) hstring hinteger _ _ _ _ _
    hb hb' _ _ _ _ _ _ ?_ ?_ rfl
  · rw [htree, shape_probe]
    rfl
  · rw [htree', shape_probe]
    rfl

/-- Under another text the second `Memorize` finds no value, and stores its own. -/
theorem Transparent.string (h : Transparent l name.text v) (hv : v.string = true) :
    (leafState l.kind 0 l.name).getStringValue = name.text := by
  by_contra hne
  have hc : commandAction (ascii "<%Memorize%>") = .command .memorizeCommand := by decide
  have hmem : ascii "<%Memorize%>" ∈ command.matches' := mem_command_of_rmatch (by decide +kernel)
  have hsame := h.probe hmem (fun _ => hv) (by rw [hc]; exact fun h => absurd h Bool.false_ne_true)
  obtain ⟨s, hs, _, htext, _⟩ := eval_reference ⟨id, 0⟩ (fun _ => 0) l name.text 12 13
  have hfree : (probeEnv l).vars.lookup s.getStringValue = none := by
    rw [htext, probeEnv, List.lookup_cons, beq_eq_false_iff_ne.mpr (Ne.symm hne)]
    rfl
  obtain ⟨r, hr, hwire⟩ := runMemorize_new ⟨id, 0⟩ 7 (State.okState 8)
    (leafState .stringLeaf 9 (ascii "\\\"y\\\"")) hfree
  have htaken : (probeEnv l).vars.lookup (leafState l.kind 12 l.name).getStringValue =
      some (.live ((leafState .stringLeaf 6 (ascii "\\\"x\\\"")).bind
        (leafState l.kind 0 l.name).getStringValue)) := by
    rw [(leafState_views _ _ _).1]
    exact List.lookup_cons_self
  obtain ⟨r', hr', hwire'⟩ := runMemorize_bound ⟨id, 0⟩ 7 (State.okState 8)
    (leafState .stringLeaf 9 (ascii "\\\"y\\\"")) htaken
  have hy : r.getStringToSend = [121] := hwire.trans (by decide)
  have hx : r'.getStringToSend = [120] := by
    rw [hwire', State.getStringToSend_bind]
    decide
  rw [runSends_probe_ok hc rfl hs hr rfl (by rw [hy]; decide),
    runSends_probe_ok hc rfl (fun _ => rfl) hr' rfl (by rw [hx]; decide),
    hy, hx] at hsame
  cases hsame

theorem length_showInt_lt {i : Int} (h : intMin ≤ i ∧ i ≤ intMax) :
    ((showInt i).length : Int) < intMax := by
  have hnat : (showNat i.natAbs).length ≤ 10 := by
    rw [showNat, List.length_map, Nat.length_toDigits_le_iff (by decide) (by decide)]
    rw [intMin, intMax] at h
    omega
  rw [showInt, intMax]
  split
  · rw [List.length_cons]
    omega
  · omega

/-- Any other number is the sum that is sent. -/
theorem Transparent.integer (h : Transparent l name.text v) (hv : v.integer = true) :
    (leafState l.kind 0 l.name).getIntegerValue = .ok 0 := by
  have hc : commandAction (ascii "<%Sum%>") = .command .additionCommand := by decide
  have hmem : ascii "<%Sum%>" ∈ command.matches' := mem_command_of_rmatch (by decide +kernel)
  have hsame := h.probe hmem (by rw [hc]; exact fun h => absurd h Bool.false_ne_true) (fun _ => hv)
  obtain ⟨s, hs, _, _, hnumber⟩ := eval_reference ⟨id, 0⟩ (fun _ => 0) l name.text 12 13
  rw [nameValue_of_isName (isName_rulename name)] at hnumber
  have hr := runAddition_letter 7 8 9 s (probeEnv l)
  rw [hnumber] at hr
  simp only [show intMin ≤ 0 ∧ 0 ≤ intMax by decide, and_self, if_true] at hr
  rw [runSends_probe_ok hc rfl hs hr rfl (length_showInt_lt (by decide))]
    at hsame
  have hr' := runAddition_letter 7 8 9 (leafState l.kind 12 l.name) (probeEnv l)
  rw [(leafState_views _ _ _).2] at hr'
  cases hn : (leafState l.kind 0 l.name).getIntegerValue with
  | error x =>
      rw [hn] at hr'
      rw [runSends_probe_error hc rfl (fun _ => rfl) hr'] at hsame
      cases hsame
  | ok n =>
      rw [hn] at hr'
      simp only at hr'
      split at hr'
      · next hfits =>
          rw [runSends_probe_ok hc rfl (fun _ => rfl) hr' rfl (length_showInt_lt hfits),
            Option.some.injEq, List.cons.injEq, List.cons.injEq] at hsame
          have hshow : showInt 0 = showInt n := hsame.1.2
          rw [showInt_injective hshow]
      · rw [runSends_probe_error hc rfl (fun _ => rfl) hr'] at hsame
        cases hsame

end Exact

/-- Putting the literal of a rule in the place of a reference that is asked for the views `v`
never changes what is sent if and only if the literal has these views of the reference: the
name of the rule for its text, and zero for its number. -/
theorem reference_transparent_iff (name : Lexeme rulename) (l : Literal) (v : Views) :
    Transparent l name.text v ↔
      (v.string = true → (leafState l.kind 0 l.name).getStringValue = name.text) ∧
        (v.integer = true → (leafState l.kind 0 l.name).getIntegerValue = .ok 0) := by
  constructor
  · exact fun h => ⟨h.string, h.integer⟩
  · rintro ⟨hstring, hinteger⟩
    refine transparent_of_showsName hstring fun hv => ?_
    rw [nameValue_of_isName (isName_rulename name)]
    exact hinteger hv

/-- With `r = <%UDP_send%> s n`, `s = <%Sum%> n` and `n = %d3` the text `03` is sent, and `33`
if `%d3` is in the place of the `n` of the sum. -/
theorem sum_reads_the_name :
    ¬ ∀ (l : Literal) (name : Lexeme rulename) (v : Views), Transparent l name.text v := by
  intro hall
  let r : Lexeme rulename :=
    ⟨ascii "r", mem_rulename.mpr ⟨114, [], by decide, List.forall_mem_nil _, rfl⟩⟩
  let s : Lexeme rulename :=
    ⟨ascii "s", mem_rulename.mpr ⟨115, [], by decide, List.forall_mem_nil _, rfl⟩⟩
  let n : Lexeme rulename :=
    ⟨ascii "n", mem_rulename.mpr ⟨110, [], by decide, List.forall_mem_nil _, rfl⟩⟩
  let three : Literal := .decval ⟨ascii "%d3",
    (RegularExpression.rmatch_iff_matches' _ _).mp (by decide +kernel)⟩
  let rules : List Rule :=
    [.definedWith r ⟨ascii "<%UDP_send%>", mem_command_of_rmatch (by decide +kernel)⟩
      (.concatenation (.append (.repetition (.element (.rulename s))) (.element (.rulename n)))),
     .definedWith s ⟨ascii "<%Sum%>", mem_command_of_rmatch (by decide +kernel)⟩
      (.concatenation (.repetition (.element (.rulename n)))),
     .defined n (.concatenation (.repetition (.element (.literal three))))]
  let values (hole : Tree) : Values :=
    [(ascii "r", .node .composite (ascii "r")
      [.leaf .commandComposite (ascii "<%UDP_send%>"), .node .composite (ascii "s") [],
       .node .composite (ascii "n") []]),
     (ascii "s", .node .composite (ascii "s")
      [.leaf .commandComposite (ascii "<%Sum%>"), hole]),
     (ascii "n", .node .composite (ascii "n") [.leaf .decLeaf (ascii "%d3")])]
  have hrules : rulelist rules = .ok (values (.node .composite (ascii "n") [])) := rfl
  have hreads : (commandAction (ascii "<%Sum%>")).reads 1 = { integer := true } := by decide
  have hputs : (values (.node .composite (ascii "n") [])).Puts three n.text { integer := true }
      (values (.leaf .decLeaf (ascii "%d3"))) := by
    rw [← hreads]
    exact ⟨rfl, ascii "s", _, _, rfl,
      .son [.leaf .commandComposite (ascii "<%Sum%>")] [] .here, rfl⟩
  let tree (hole : Composite) : Composite :=
    .node .composite 0 (ascii "r")
      [.leaf .commandComposite 1 (ascii "<%UDP_send%>"),
       .node .composite 2 (ascii "s") [.leaf .commandComposite 3 (ascii "<%Sum%>"), hole],
       .node .composite 6 (ascii "n") [.leaf .decLeaf 7 (ascii "%d3")]]
  have hsame := hall three n { integer := true } _ _ _ (parsed_rulelist hrules) hputs
    (fun h => absurd h Bool.false_ne_true)
    (fun _ => rfl) (ascii "r") 5 5 _ _ rfl rfl ⟨id, 0⟩
    (tree (.node .composite 4 (ascii "n") [.leaf .decLeaf 5 (ascii "%d3")]))
    (tree (.leaf .decLeaf 4 (ascii "%d3"))) (fun _ => 0) (fun _ => 0) {} rfl rfl rfl
  revert hsame
  decide

end Stress

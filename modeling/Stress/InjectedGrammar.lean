import Stress.WrittenGrammar

/-!
# From a grammar to the file of its injected tree

The tree that the parser builds from a grammar goes through the injector and is written to a
file.  `injected_file_accepted_iff` says when a file comes about and when the parser accepts
it.  A leaf without text is deleted by `inject` and stays in the tree all the same, where
`write` fails on it.  If there is none, the file is written, and it is accepted exactly when
no rule that the first one leads to has brackets, alternatives or counts in its body.  For
such a grammar the file is read as a tree that generates the same texts.

The ids of the nodes end up in the names of the file, so they have to differ.  What `inject`
makes of a node has the ids of the node and new ones (`Renews`), and the new ones of two
sends do not meet.
-/

namespace Stress

open Relation RegularExpression

/-! ## The trees of a grammar -/

/-- All inner nodes have names of rules. -/
inductive Tree.Named : Tree → Prop where
  | leaf (kind : LeafKind) (name : Bytes) : Named (.leaf kind name)
  | node {kind : NodeKind} {name : Bytes} {sons : List Tree} (hname : IsName name)
      (hsons : ∀ t ∈ sons, Named t) : Named (.node kind name sons)

/-- The body of the rule has no brackets, alternatives or counts. -/
def Plain (values : Values) (n : Bytes) : Prop :=
  ∀ node, values.lookup n = some node → ∀ t ∈ node.sons, t.sons = []

section Grammar

variable {values : Values} {t u : Tree}

theorem Tree.named_node {kind : NodeKind} {name : Bytes} {sons : List Tree} :
    (Tree.node kind name sons).Named ↔ IsName name ∧ ∀ t ∈ sons, t.Named := by
  constructor
  · intro h
    cases h with
    | node hname hsons => exact ⟨hname, hsons⟩
  · exact fun h => .node h.1 h.2

theorem forall₂_forall_iff {α β : Type} {R : α → β → Prop} {p : α → Prop} {q : β → Prop}
    {l : List α} {m : List β} (h : List.Forall₂ R l m)
    (hpq : ∀ a ∈ l, ∀ b ∈ m, R a b → (p a ↔ q b)) : (∀ a ∈ l, p a) ↔ ∀ b ∈ m, q b := by
  induction h with
  | nil => exact ⟨nofun, nofun⟩
  | cons hab _ ih =>
      rw [List.forall_mem_cons, List.forall_mem_cons,
        hpq _ List.mem_cons_self _ List.mem_cons_self hab,
        ih fun a ha b hb => hpq a (List.mem_cons_of_mem _ ha) b (List.mem_cons_of_mem _ hb)]

/-- An expanded tree has names of rules alone if and only if no rule it goes through has
another body than a row of leaves and references. -/
theorem Expands.named_iff (hs : values.Source) (h : Expands values t u) (ht : t.Source)
    (hfull : u.Full) :
    u.Named ↔ t.sons = [] ∧ ∀ m ∈ t.references, ∀ n, ReflTransGen (Refers values) m n →
      Plain values n := by
  induction u using Tree.induction generalizing t with
  | h u ih =>
      cases h with
      | leaf kind name =>
          rw [Tree.references]
          exact ⟨fun _ => ⟨rfl, List.forall_mem_nil _⟩, fun _ => .leaf kind name⟩
      | undefined hrule =>
          cases hfull with
          | node hne _ => exact absurd rfl hne
      | @reference kind name node us hrule hus =>
          obtain ⟨hname, sons, rfl, _, hsource⟩ := hs name _ hrule
          cases hfull with
          | node _ hfulls =>
              have hsons : (∀ v ∈ us, v.Named) ↔ ∀ s ∈ sons, s.sons = [] ∧
                  ∀ m ∈ s.references, ∀ n, ReflTransGen (Refers values) m n → Plain values n :=
                (forall₂_forall_iff hus fun s hs' v hv hexpands =>
                  (ih v hv hexpands (hsource s hs') (hfulls v hv)).symm).symm
              have hrefers : ∀ m, Refers values name m ↔ m ∈ sons.flatMap Tree.references := by
                intro m
                constructor
                · rintro ⟨node, hnode, hm⟩
                  rw [hrule] at hnode
                  cases hnode
                  exact hm
                · exact fun hm => ⟨_, hrule, hm⟩
              rw [Tree.named_node, and_iff_right hname, hsons, Tree.references, Tree.sons,
                and_iff_right rfl, List.forall_mem_singleton]
              constructor
              · intro hall n hn
                cases hn.cases_head with
                | inl heq =>
                    rintro node hnode s hs
                    rw [← heq, hrule] at hnode
                    cases hnode
                    exact (hall s hs).1
                | inr hstep =>
                    obtain ⟨m, hstep, hn⟩ := hstep
                    obtain ⟨s, hs, hm⟩ := List.mem_flatMap.mp ((hrefers m).mp hstep)
                    exact (hall s hs).2 m hm n hn
              · intro hall s hs
                refine ⟨hall name .refl _ hrule s hs, fun m hm n hn => hall n (.head ?_ hn)⟩
                exact (hrefers m).mpr (List.mem_flatMap.mpr ⟨s, hs, hm⟩)
      | inner hne hus =>
          refine iff_of_false (fun hnamed => ?_) fun hsons => hne hsons.1
          cases ht with
          | reference => exact hne rfl
          | inner hname _ _ => exact hname (Tree.named_node.mp hnamed).1

/-- The leaf of a command stays, and the sons behind it are expanded. -/
theorem expands_commandNode {c : Option (Lexeme command)} {ts us : List Tree}
    (h : List.Forall₂ (Expands values) (commandNode c ++ ts) us) :
    ∃ vs, us = commandNode c ++ vs ∧ List.Forall₂ (Expands values) ts vs := by
  cases c with
  | none => exact ⟨us, rfl, h⟩
  | some c =>
      cases h with
      | cons hcommand hvs =>
          cases hcommand
          exact ⟨_, rfl, hvs⟩

/-- An expanded tree without an undefined rule can be written. -/
theorem Expands.printable (hp : values.Parsed) (h : Expands values t u) (ht : t.Parsed)
    (hfull : u.Full) : u.Printable := by
  have hsons : ∀ {c : Option (Lexeme command)} {ts us vs : List Tree},
      (∀ v ∈ us, ∀ {t : Tree}, Expands values t v → t.Parsed → v.Full → v.Printable) →
      us = commandNode c ++ vs → (∀ v ∈ us, v.Full) → List.Forall₂ (Expands values) ts vs →
      (∀ t ∈ ts, t.Parsed) → ∀ v ∈ vs, v.Printable := by
    intro c ts us vs ih hus hfulls hvs hts
    have hall : ∀ v ∈ vs, v ∈ us := fun v hv => hus ▸ List.mem_append_right _ hv
    clear hus
    induction hvs with
    | nil => exact nofun
    | cons hexpands _ ihvs =>
        rw [List.forall_mem_cons] at hts hall ⊢
        exact ⟨ih _ hall.1 hexpands hts.1 (hfulls _ hall.1), ihvs hts.2 hall.2⟩
  induction u using Tree.induction generalizing t with
  | h u ih =>
      cases h with
      | leaf kind name =>
          cases ht with
          | literal l => exact .literal l
      | undefined hrule =>
          cases hfull with
          | node hne _ => exact absurd rfl hne
      | @reference kind name node us hrule hus =>
          have hkind : kind = .composite := by
            generalize hnil : ([] : List Tree) = sons at ht
            cases ht with
            | reference => rfl
            | group => rfl
            | plain _ _ hne => exact absurd hnil.symm hne
          subst hkind
          obtain ⟨n, c, sons, rfl, rfl, hne, hparsed⟩ := hp name _ hrule
          obtain ⟨vs, rfl, hvs⟩ := expands_commandNode hus
          cases hfull with
          | node _ hfulls =>
              refine .rule n c ?_ (hsons (fun v hv _ => ih v hv) rfl hfulls hvs hparsed)
              rintro rfl
              cases hvs
              exact hne rfl
      | inner hne hus =>
          cases ht with
          | reference => exact absurd rfl hne
          | group c hname _ hss =>
              obtain ⟨vs, rfl, hvs⟩ := expands_commandNode hus
              cases hfull with
              | node hne hfulls =>
                  exact .group c hname hne (hsons (fun v hv _ => ih v hv) rfl hfulls hvs hss)
          | plain hkind hname _ hss =>
              cases hfull with
              | node hne hfulls =>
                  exact .plain hkind hname hne
                    (hsons (c := none) (fun v hv _ => ih v hv) rfl hfulls hus hss)

end Grammar

/-! ## Anomalies -/

section Anomalies

open InjectorPerformer

variable {t u : Tree}

theorem printable_stringNode {s : Bytes} (h : ∀ c ∈ s, isText c = true) :
    (stringNode s).Printable := by
  have hname : addQuote s = (Literal.charval (quoted s h)).name :=
    (Literal.name_quoted s h).symm
  rw [stringNode, hname]
  exact .literal (.charval (quoted s h))

/-- A dump of digits that is not empty can be written. -/
theorem printable_hexNode {digits : Bytes} (hne : digits ≠ [])
    (h : ∀ c ∈ digits, isHexDigit c = true) : (hexNode (ascii "%x" ++ digits)).Printable := by
  have hmem : ascii "%x" ++ digits ∈ hexval.matches' := by
    refine mem_mul.mpr ⟨ascii "%x", mem_add.mpr (.inl (mem_str.mpr rfl)), digits, ?_, rfl⟩
    refine mem_mul.mpr ⟨digits, mem_many1_cls.mpr ⟨hne, fun c hc => ?_⟩, [], mem_opt.mpr (.inl rfl),
      List.append_nil _⟩
    rw [isHexdig, h c hc, Bool.true_or]
  exact .literal (.hexval ⟨_, hmem⟩)

theorem exists_numbered {s : Bytes} (n : Nat) {c : UInt8} {rest : Bytes} (hs : s = c :: rest)
    (hc : isLetter c = true) (hrest : ∀ d ∈ rest, isRuleChar d = true) :
    ∃ t : Lexeme rulename, t.text = s ++ showNat n := by
  refine ⟨⟨s ++ showNat n, mem_rulename.mpr ⟨c, rest ++ showNat n, hc, ?_, by rw [hs]; rfl⟩⟩, rfl⟩
  refine List.forall_mem_append.mpr ⟨hrest, fun d hd => ?_⟩
  rw [isRuleChar, isDigit_of_mem_showNat hd, Bool.or_true, Bool.true_or]

theorem printable_anomaly (k : Nat) {sons : List Tree} (hne : sons ≠ [])
    (h : ∀ s ∈ sons, s.Printable) : (anomaly k sons).Printable := by
  obtain ⟨t, ht⟩ := exists_numbered (s := ascii "anomaly") k rfl rfl
    (List.all_eq_true.mp (by decide +kernel))
  rw [anomaly, ← ht]
  exact .rule t none hne h

variable (anomalyCounter : Nat) (rand : Nat → Nat → Nat) {text : Bytes}

theorem isText_fill {lenght : Nat} (fuel : Nat) {s : Bytes} (htext : ∀ c ∈ text, isText c = true)
    (hs : ∀ c ∈ s, isText c = true) : ∀ c ∈ fill text lenght fuel s, isText c = true := by
  induction fuel generalizing s with
  | zero => exact hs
  | succ fuel ih =>
      rw [fill]
      split
      · exact ih (List.forall_mem_append.mpr ⟨hs, htext⟩)
      · exact hs

theorem showHex_ne_nil (n : Nat) : showHex n ≠ [] := by
  rw [showHex]
  split <;> exact List.cons_ne_nil _ _

/-- A number for each character of a text. -/
theorem printable_numbers {f : Nat → Nat} (hne : text ≠ []) (hf : ∀ i, f i < 256) :
    (hexNode (ascii "%x" ++
      (List.range text.length).flatMap fun i => showHex (f i))).Printable := by
  refine printable_hexNode ?_ fun c hc => ?_
  · obtain ⟨a, s, rfl⟩ := List.exists_cons_of_ne_nil hne
    rw [List.length_cons, List.range_succ_eq_map, List.flatMap_cons]
    exact List.append_ne_nil_of_left_ne_nil (showHex_ne_nil _) _
  · obtain ⟨i, _, hc⟩ := List.mem_flatMap.mp hc
    exact isHexDigit_of_mem_showHex (hf i) c hc

theorem printable_addFaults (htext : ∀ c ∈ text, isText c = true) (hne : text ≠ []) :
    ∀ t ∈ addFaults anomalyCounter text rand, t.Printable := by
  have hmiddle : ∀ (k : Nat) (r : Nat → Nat) (digits : Bytes), digits ≠ [] →
      (∀ c ∈ digits, isHexDigit c = true) →
      (stringInjectionMIDDLETERM k r text (ascii "%x" ++ digits)).Printable := by
    intro k r digits hdigits hhex
    rw [stringInjectionMIDDLETERM, if_neg fun hnil => hne (List.length_eq_zero_iff.mp hnil)]
    refine printable_anomaly k (List.cons_ne_nil _ _) (List.forall_mem_cons.mpr
      ⟨printable_stringNode fun c hc => htext c (List.mem_of_mem_take hc),
        List.forall_mem_cons.mpr ⟨printable_hexNode hdigits hhex, List.forall_mem_singleton.mpr
          (printable_stringNode fun c hc => htext c (List.mem_of_mem_drop hc))⟩⟩)
  have hone : ∀ (k : Nat) {t : Tree}, t.Printable → (anomaly k [t]).Printable := fun k _ ht =>
    printable_anomaly k (List.cons_ne_nil _ _) (List.forall_mem_singleton.mpr ht)
  intro t ht
  simp only [addFaults, List.mem_cons, List.not_mem_nil, or_false] at ht
  obtain rfl | rfl | rfl | rfl | rfl | rfl | rfl := ht
  · exact hmiddle _ _ (ascii "00") (by decide) (List.all_eq_true.mp rfl)
  · exact hmiddle _ _ (ascii "0a") (by decide) (List.all_eq_true.mp rfl)
  · exact hmiddle _ _ (ascii "0d") (by decide) (List.all_eq_true.mp rfl)
  · exact hone _ (printable_stringNode (isText_fill _ htext htext))
  · exact hone _ (printable_numbers hne fun i => by omega)
  · exact hone _ (printable_numbers hne fun i => by omega)
  · exact hone _ (printable_stringNode (List.forall_mem_nil _))

theorem named_anomaly (k : Nat) {sons : List Tree} (h : ∀ s ∈ sons, s.isLeaf = true) :
    (anomaly k sons).Named := by
  refine .node ?_ fun s hs => ?_
  · have hletter : IsName (ascii "anomaly") := by decide
    exact hletter
  · cases s with
    | leaf => exact .leaf _ _
    | node => cases h _ hs

/-- The alternation with the anomalies of a text can be written. -/
theorem printable_createFaults (orCounter : Nat) {name : Bytes}
    (h : (Tree.leaf .stringLeaf name).Printable) (htrim : trim name = some text) (hne : text ≠ []) :
    (createFaults anomalyCounter text orCounter rand name).Printable := by
  have htext : ∀ c ∈ text, isText c = true := by
    generalize hkind : LeafKind.stringLeaf = kind at h
    cases h with
    | literal l =>
        cases l with
        | charval w =>
            obtain ⟨w, hw⟩ := w
            obtain ⟨v, hv, rfl⟩ := mem_charval.mp hw
            have hname := Literal.name_quoted v hv
            rw [quoted] at hname
            rw [hname, trim_quoted, Option.some.injEq] at htrim
            exact htrim ▸ hv
        | binval => cases hkind
        | decval => cases hkind
        | hexval => cases hkind
  obtain ⟨t, ht⟩ := exists_numbered (s := ascii "or") orCounter rfl rfl
    (List.all_eq_true.mp (by decide +kernel))
  rw [createFaults, ← ht]
  exact .injected t (List.cons_ne_nil _ _)
    (List.forall_mem_cons.mpr ⟨h, printable_addFaults anomalyCounter rand htext hne⟩)

theorem named_createFaults (orCounter : Nat) (text name : Bytes) :
    (createFaults anomalyCounter text orCounter rand name).Named := by
  refine .node ?_ (List.forall_mem_cons.mpr ⟨.leaf _ _, fun t ht => ?_⟩)
  · have hletter : IsName (ascii "or") := by decide
    exact hletter
  · obtain ⟨k, sons, rfl, _, hsons⟩ := isAnomaly_of_mem_addFaults ht
    refine named_anomaly k fun s hs => ?_
    obtain ⟨kind, n, rfl, _⟩ := hsons s hs
    rfl

/-- The leaf of a command is not replaced. -/
theorem injected_commandNode {c : Option (Lexeme command)} {ts us : List Tree}
    (h : List.Forall₂ Injected (commandNode c ++ ts) us) :
    ∃ vs, us = commandNode c ++ vs ∧ List.Forall₂ Injected ts vs := by
  cases c with
  | none => exact ⟨us, rfl, h⟩
  | some c =>
      cases h with
      | cons hcommand hvs =>
          cases hcommand
          exact ⟨_, rfl, hvs⟩

/-- An injected tree can be written if the tree before can. -/
theorem Injected.printable (h : Injected t u) (ht : t.Printable) : u.Printable := by
  induction t using Tree.induction generalizing u with
  | h t ih =>
      cases h with
      | leaf kind name => exact ht
      | faults htrim hne orCounter anomalyCounter rand =>
          exact printable_createFaults anomalyCounter rand orCounter ht htrim hne
      | @node kind name sons sons' hsons =>
          have hall : ∀ {ts us : List Tree}, List.Forall₂ Injected ts us → (∀ t ∈ ts, t ∈ sons) →
              (∀ t ∈ ts, t.Printable) → ∀ u ∈ us, u.Printable := by
            intro ts us hts hmem hprint
            induction hts with
            | nil => exact nofun
            | cons hinjected _ ihts =>
                rw [List.forall_mem_cons] at hmem hprint ⊢
                exact ⟨ih _ hmem.1 hinjected hprint.1, ihts hmem.2 hprint.2⟩
          have hempty : ∀ {ts us : List Tree}, List.Forall₂ Injected ts us → ts ≠ [] → us ≠ [] := by
            rintro ts us hts hne rfl
            cases hts
            exact hne rfl
          cases ht with
          | rule n c hne hprint =>
              obtain ⟨vs, rfl, hvs⟩ := injected_commandNode hsons
              exact .rule n c (hempty hvs hne)
                (hall hvs (fun t ht => List.mem_append_right _ ht) hprint)
          | injected n hne hprint =>
              exact .injected n (hempty hsons hne) (hall hsons (fun _ ht => ht) hprint)
          | group c hname hne hprint =>
              have hne' := hempty hsons hne
              obtain ⟨vs, rfl, hvs⟩ := injected_commandNode hsons
              exact .group c hname hne' (hall hvs (fun t ht => List.mem_append_right _ ht) hprint)
          | plain hkind hname hne hprint =>
              exact .plain hkind hname (hempty hsons hne) (hall hsons (fun _ ht => ht) hprint)

/-- The injector brings in no names but those of rules. -/
theorem Injected.named_iff (h : Injected t u) : u.Named ↔ t.Named := by
  induction t using Tree.induction generalizing u with
  | h t ih =>
      cases h with
      | leaf => exact Iff.rfl
      | faults =>
          exact iff_of_true (named_createFaults _ _ _ _ _) (.leaf _ _)
      | node hsons =>
          rw [Tree.named_node, Tree.named_node]
          refine and_congr_right fun _ => (forall₂_forall_iff hsons ?_).symm
          exact fun t ht u _ hinjected => (ih t ht hinjected).symm

end Anomalies

/-! ## Old and new ids -/

/-- Ids before and after a step in which the counter of the ids has gone from `n` to `m`. -/
structure Renews (n m : Nat) (ids ids' : List Nat) : Prop where
  le : n ≤ m
  mem : ∀ i ∈ ids', i ∈ ids ∨ n ≤ i ∧ i < m
  nodup : ids.Nodup → (∀ i ∈ ids, i < n) → ids'.Nodup

namespace Renews

variable {n m k : Nat} {ids ids' is is' : List Nat}

theorem refl (n : Nat) (ids : List Nat) : Renews n n ids ids where
  le := Nat.le_refl n
  mem _ hi := .inl hi
  nodup h _ := h

theorem cons (h : Renews n m ids ids') (i : Nat) : Renews n m (i :: ids) (i :: ids') where
  le := h.le
  mem := List.forall_mem_cons.mpr ⟨.inl List.mem_cons_self, fun j hj =>
    (h.mem j hj).imp_left (List.mem_cons_of_mem i)⟩
  nodup hnodup hlt := by
    rw [List.nodup_cons] at hnodup ⊢
    rw [List.forall_mem_cons] at hlt
    refine ⟨fun hi => ?_, h.nodup hnodup.2 hlt.2⟩
    obtain hold | hnew := h.mem i hi
    · exact hnodup.1 hold
    · exact absurd hlt.1 (Nat.not_lt.mpr hnew.1)

theorem append (h : Renews n m ids ids') (h' : Renews m k is is') :
    Renews n k (ids ++ is) (ids' ++ is') where
  le := Nat.le_trans h.le h'.le
  mem := by
    have hle := h.le
    have hle' := h'.le
    refine List.forall_mem_append.mpr ⟨fun i hi => ?_, fun i hi => ?_⟩
    · obtain hold | hnew := h.mem i hi
      · exact .inl (List.mem_append_left _ hold)
      · exact .inr ⟨hnew.1, by omega⟩
    · obtain hold | hnew := h'.mem i hi
      · exact .inl (List.mem_append_right _ hold)
      · exact .inr ⟨by omega, hnew.2⟩
  nodup hnodup hlt := by
    have hle := h.le
    rw [List.nodup_append] at hnodup ⊢
    rw [List.forall_mem_append] at hlt
    refine ⟨h.nodup hnodup.1 hlt.1, h'.nodup hnodup.2.1 fun i hi =>
      Nat.lt_of_lt_of_le (hlt.2 i hi) hle, ?_⟩
    rintro i hi j hj rfl
    obtain hold | hnew := h.mem i hi
    · obtain hold' | hnew' := h'.mem i hj
      · exact hnodup.2.2 i hold i hold' rfl
      · have := hlt.1 i hold
        omega
    · obtain hold' | hnew' := h'.mem i hj
      · have := hlt.2 i hold'
        omega
      · omega

end Renews

/-- New nodes get the next ids in their order. -/
theorem ids_makeNode (t : Tree) (nextId : Nat) :
    (makeNode t nextId).1.nodes.map Composite.id =
      List.range' nextId ((makeNode t nextId).2 - nextId) := by
  refine @Tree.rec
    (fun t => ∀ n, (makeNode t n).1.nodes.map Composite.id = List.range' n ((makeNode t n).2 - n))
    (fun ts => ∀ n, n ≤ (makeSons ts n).2 ∧ (Composite.nodesOf (makeSons ts n).1).map Composite.id =
      List.range' n ((makeSons ts n).2 - n)) ?_ ?_ ?_ ?_ t nextId
  · intro kind name n
    have hone : n + 1 - n = 1 := by omega
    rw [makeNode, Composite.nodes, hone]
    rfl
  · intro kind name ts ih n
    obtain ⟨hle, hids⟩ := ih (n + 1)
    have hlen : (makeSons ts (n + 1)).2 - n = (makeSons ts (n + 1)).2 - (n + 1) + 1 := by omega
    rw [makeNode, Composite.nodes, List.map_cons, hids, hlen, List.range'_succ]
    rfl
  · intro n
    refine ⟨Nat.le_refl n, ?_⟩
    rw [makeSons, Composite.nodesOf, Nat.sub_self]
    rfl
  · intro t ts iht ihts n
    have hlt := AnomalyInjector.lt_makeNode t n
    obtain ⟨hle, hids⟩ := ihts (makeNode t n).2
    refine ⟨Nat.le_trans (Nat.le_of_lt hlt) hle, ?_⟩
    rw [makeSons, Composite.nodesOf, List.map_append, iht, hids]
    have hstart : (makeNode t n).2 = n + 1 * ((makeNode t n).2 - n) := by omega
    have hlen : (makeSons ts (makeNode t n).2).2 - n =
        ((makeNode t n).2 - n) + ((makeSons ts (makeNode t n).2).2 - (makeNode t n).2) := by omega
    rw [hlen, ← List.range'_append, ← hstart]

theorem renews_makeNode (t : Tree) (nextId : Nat) (ids : List Nat) :
    Renews nextId (makeNode t nextId).2 ids ((makeNode t nextId).1.nodes.map Composite.id) := by
  have hlt := AnomalyInjector.lt_makeNode t nextId
  rw [ids_makeNode]
  refine ⟨Nat.le_of_lt hlt, fun i hi => .inr ?_, fun _ _ => List.nodup_range'⟩
  rw [List.mem_range'_1] at hi
  omega

namespace Composite

theorem named_shape_iff (c : Composite) :
    c.shape.Named ↔ ∀ d ∈ AnomalyInjector.inner c, IsName d.name := by
  induction c using Composite.induction with
  | h c ih =>
      cases c with
      | leaf kind id name =>
          refine iff_of_true (.leaf kind name) fun d hd => ?_
          obtain ⟨hd, hinner⟩ := AnomalyInjector.mem_inner.mp hd
          rw [nodes, List.mem_singleton] at hd
          rw [hd] at hinner
          cases hinner
      | node kind id name sons =>
          rw [shape, Tree.named_node, shapes_eq, List.forall_mem_map]
          have hinner : AnomalyInjector.inner (.node kind id name sons) =
              .node kind id name sons :: sons.flatMap AnomalyInjector.inner := by
            rw [AnomalyInjector.inner, nodes_eq, List.filter_cons_of_pos rfl, List.filter_flatMap]
            rfl
          rw [hinner, List.forall_mem_cons]
          refine and_congr_right fun _ => ?_
          constructor
          · intro h d hd
            obtain ⟨s, hs, hd⟩ := List.mem_flatMap.mp hd
            exact (ih s hs).mp (h s hs) d hd
          · exact fun h s hs => (ih s hs).mpr fun d hd => h d (List.mem_flatMap.mpr ⟨s, hs, hd⟩)

end Composite

/-! ## The injected tree -/

theorem Injected.refl (t : Tree) : Injected t t := by
  induction t using Tree.induction with
  | h t ih =>
      cases t with
      | leaf kind name => exact .leaf kind name
      | node kind name sons => exact .node (List.forall₂_same.mpr ih)

namespace AnomalyInjector

variable {w : World} {rand : Nat → Nat → Nat → Nat}

/-- What the injector makes of a node: its names and its ids. -/
structure Makes (c c' : Composite) (st st' : Injection) : Prop where
  ids : Renews st.nextId st'.nextId (c.nodes.map Composite.id) (c'.nodes.map Composite.id)
  shape : Injected c.shape c'.shape

theorem makes_injectLeaf {kind : LeafKind} {id : Nat} {name : Bytes} {c : Composite}
    {st st' : Injection} (h : injectLeaf rand kind id name st = some (c, st')) :
    Makes (.leaf kind id name) c st st' := by
  cases kind with
  | stringLeaf =>
      rw [injectLeaf] at h
      split at h
      · cases h
      · cases h
        exact ⟨.refl _ _, .refl _⟩
      · next hne htrim =>
          cases h
          refine ⟨renews_makeNode _ _ _, ?_⟩
          rw [shape_makeNode, Composite.shape]
          exact .faults htrim hne _ _ _
  | hexLeaf => cases h; exact ⟨renews_makeNode (.leaf _ name) _ _, .leaf _ name⟩
  | decLeaf => cases h; exact ⟨renews_makeNode (.leaf _ name) _ _, .leaf _ name⟩
  | binLeaf => cases h; exact ⟨renews_makeNode (.leaf _ name) _ _, .leaf _ name⟩
  | commandComposite => cases h; exact ⟨renews_makeNode (.leaf _ name) _ _, .leaf _ name⟩

theorem makes_injectSons {datasons : List Nat} {cs : List Composite}
    (hson : ∀ d ∈ cs, ∀ {d' : Composite} {st st' : Injection},
      inject w rand d st = some (d', st') → Makes d d' st st')
    {k : Nat} {cs' : List Composite} {st st' : Injection}
    (h : injectSons w rand datasons k cs st = some (cs', st')) :
    Renews st.nextId st'.nextId ((cs.flatMap Composite.nodes).map Composite.id)
      ((cs'.flatMap Composite.nodes).map Composite.id) ∧
      List.Forall₂ Injected (cs.map Composite.shape) (cs'.map Composite.shape) := by
  induction cs generalizing k cs' st st' with
  | nil =>
      cases h
      exact ⟨.refl _ _, .nil⟩
  | cons c cs ih =>
      obtain ⟨hc, hcs⟩ := List.forall_mem_cons.mp hson
      rw [injectSons] at h
      obtain ⟨⟨c', st₁⟩, hhead, h⟩ := Option.bind_eq_some_iff.mp h
      obtain ⟨⟨ds, st₂⟩, hds, h⟩ := Option.map_eq_some_iff.mp h
      cases h
      have hmakes : Makes c c' st st₁ := by
        split at hhead
        · exact hc hhead
        · cases hhead
          exact ⟨.refl _ _, .refl _⟩
      obtain ⟨hids, hshapes⟩ := ih hcs hds
      rw [List.flatMap_cons, List.flatMap_cons, List.map_append, List.map_append]
      exact ⟨hmakes.ids.append hids, .cons hmakes.shape hshapes⟩

theorem makes_inject {c c' : Composite} {st st' : Injection}
    (h : inject w rand c st = some (c', st')) : Makes c c' st st' := by
  induction c using Composite.induction generalizing c' st st' with
  | h c ih =>
      cases c with
      | leaf => exact makes_injectLeaf h
      | node kind id name sons =>
          rw [inject] at h
          split at h
          · obtain ⟨⟨sons', st₁⟩, hsons, h⟩ := Option.map_eq_some_iff.mp h
            cases h
            obtain ⟨hids, hshapes⟩ := makes_injectSons (fun d hd _ _ _ => ih d hd) hsons
            refine ⟨?_, ?_⟩
            · rw [Composite.nodes_eq, Composite.nodes_eq, List.map_cons, List.map_cons]
              exact hids.cons id
            · rw [Composite.shape, Composite.shape, Composite.shapes_eq, Composite.shapes_eq]
              exact .node hshapes
          · cases h

/-! ## The branches of the sends -/

/-- What a send has become when the counter of the ids had reached `n`. -/
structure Renewed (n : Nat) (s b : Composite) : Prop where
  id : b.id = s.id
  shape : Injected s.shape b.shape
  nodup : (b.nodes.map Composite.id).Nodup
  mem : ∀ i ∈ b.nodes.map Composite.id, i ∈ s.nodes.map Composite.id ∨ n ≤ i

/-- The new ids of one branch are not those of another. -/
def Apart (n : Nat) (b b' : Composite) : Prop :=
  ∀ i, n ≤ i → i ∈ b.nodes.map Composite.id → i ∉ b'.nodes.map Composite.id

theorem injectSends_renewed {returned : Nat → Bool} {k n : Nat} {cs bs : List Composite}
    {st st' : Injection} (hle : n ≤ st.nextId) (hinner : ∀ s ∈ cs, s.isLeaf = false)
    (hids : ∀ s ∈ cs, (s.nodes.map Composite.id).Nodup ∧ ∀ i ∈ s.nodes.map Composite.id, i < n)
    (h : injectSends w rand returned k cs st = some (bs, st')) :
    (∀ b ∈ bs, (∃ s ∈ cs, Renewed n s b) ∧
      ∀ i ∈ b.nodes.map Composite.id, i < n ∨ st.nextId ≤ i) ∧ bs.Pairwise (Apart n) := by
  induction cs generalizing k bs st st' with
  | nil =>
      cases h
      exact ⟨nofun, .nil⟩
  | cons c cs ih =>
      rw [List.forall_mem_cons] at hinner hids
      rw [injectSends] at h
      obtain ⟨⟨b, st₁⟩, hb, h⟩ := Option.bind_eq_some_iff.mp h
      have hmakes := makes_inject hb
      have hlt : ∀ i ∈ c.nodes.map Composite.id, i < st.nextId := fun i hi =>
        Nat.lt_of_lt_of_le (hids.1.2 i hi) hle
      have hrenewed : Renewed n c b := by
        refine ⟨InjectedTo.id_eq (n := n) ⟨st, st₁, hle, hb⟩ hinner.1, hmakes.shape,
          hmakes.ids.nodup hids.1.1 hlt, fun i hi => ?_⟩
        exact (hmakes.ids.mem i hi).imp_right fun hnew => Nat.le_trans hle hnew.1
      have hhead : (∃ s ∈ c :: cs, Renewed n s b) ∧
          ∀ i ∈ b.nodes.map Composite.id, i < n ∨ st.nextId ≤ i :=
        ⟨⟨c, List.mem_cons_self, hrenewed⟩, fun i hi =>
          (hmakes.ids.mem i hi).imp (hids.1.2 i) fun hnew => hnew.1⟩
      split at h
      · obtain ⟨⟨ds, st₂⟩, hds, h⟩ := Option.map_eq_some_iff.mp h
        cases h
        have hle₁ := hmakes.ids.le
        obtain ⟨hall, hapart⟩ := ih (Nat.le_trans hle hle₁) hinner.2 hids.2 hds
        refine ⟨List.forall_mem_cons.mpr ⟨hhead, fun d hd => ?_⟩,
          .cons (fun d hd i hi hib hid => ?_) hapart⟩
        · obtain ⟨⟨s, hs, hrenewed⟩, hnew⟩ := hall d hd
          exact ⟨⟨s, List.mem_cons_of_mem _ hs, hrenewed⟩, fun i hi =>
            (hnew i hi).imp_right (Nat.le_trans hle₁)⟩
        · have hnew := (hall d hd).2 i hid
          obtain hold | hold := hmakes.ids.mem i hib
          · have := hids.1.2 i hold
            omega
          · omega
      · cases h
        exact ⟨List.forall_mem_singleton.mpr hhead, List.pairwise_singleton _ _⟩

section Attach

variable {t : ParsedTree} {branches : List Composite} {n : Nat}

/-- Around the branches the tree is as it was. -/
theorem injected_attach
    (h : ∀ b ∈ branches, ∃ s ∈ t.root.nodes, Renewed n s b) {c : Composite}
    (hc : c ∈ t.root.nodes) : Injected c.shape (attach branches c).shape := by
  induction c using Composite.induction with
  | h c ih =>
      cases c with
      | leaf kind id name =>
          rw [attach]
          exact .refl _
      | node kind id name sons =>
          rw [attach]
          cases hbranch : branchOf branches id with
          | some b =>
              obtain ⟨s, hs, hrenewed⟩ := h b (List.mem_of_find?_eq_some hbranch)
              have hid : b.id = id := by
                have hfind := List.find?_some hbranch
                exact beq_iff_eq.mp hfind
              obtain rfl := t.eq_of_id_eq hs hc (hrenewed.id.symm.trans hid)
              exact hrenewed.shape
          | none =>
              have hsons : ∀ cs : List Composite, (∀ d ∈ cs, d ∈ sons) → List.Forall₂ Injected
                  (cs.map Composite.shape) ((attachSons branches cs).map Composite.shape) := by
                intro cs hcs
                induction cs with
                | nil => exact .nil
                | cons d cs ihcs =>
                    rw [List.forall_mem_cons] at hcs
                    rw [attachSons, List.map_cons, List.map_cons]
                    exact .cons (ih d hcs.1 (Composite.nodes_trans hc
                      (Composite.son_mem_nodes (c := .node kind id name sons) hcs.1))) (ihcs hcs.2)
              rw [Option.getD_none, Composite.shape, Composite.shape, Composite.shapes_eq,
                Composite.shapes_eq]
              exact .node (hsons sons fun _ hd => hd)

/-- Ids of a part of the tree, and those with the branches in it. -/
structure Keeps (n : Nat) (branches : List Composite) (ids ids' : List Nat) : Prop where
  nodup : ids'.Nodup
  mem : ∀ i ∈ ids', i ∈ ids ∨
    n ≤ i ∧ ∃ b ∈ branches, b.id ∈ ids ∧ i ∈ b.nodes.map Composite.id

theorem Keeps.append {ids ids' is is' : List Nat} (h : Keeps n branches ids ids')
    (h' : Keeps n branches is is')
    (hapart : ∀ b ∈ branches, ∀ b' ∈ branches, b.id ≠ b'.id → Apart n b b')
    (hnodup : (ids ++ is).Nodup) (hlt : ∀ i ∈ ids ++ is, i < n) :
    Keeps n branches (ids ++ is) (ids' ++ is') := by
  rw [List.nodup_append] at hnodup
  rw [List.forall_mem_append] at hlt
  refine ⟨List.nodup_append.mpr ⟨h.nodup, h'.nodup, ?_⟩, List.forall_mem_append.mpr ⟨?_, ?_⟩⟩
  · rintro i hi j hj rfl
    obtain hold | ⟨hnew, b, hb, hbid, hib⟩ := h.mem i hi
    · have := hlt.1 i hold
      obtain hold' | ⟨hnew', _⟩ := h'.mem i hj
      · exact hnodup.2.2 i hold i hold' rfl
      · omega
    · obtain hold' | ⟨_, b', hb', hbid', hib'⟩ := h'.mem i hj
      · have := hlt.2 i hold'
        omega
      · exact hapart b hb b' hb' (hnodup.2.2 _ hbid _ hbid') i hnew hib hib'
  · intro i hi
    refine (h.mem i hi).imp (List.mem_append_left _) ?_
    rintro ⟨hnew, b, hb, hbid, hib⟩
    exact ⟨hnew, b, hb, List.mem_append_left _ hbid, hib⟩
  · intro i hi
    refine (h'.mem i hi).imp (List.mem_append_right _) ?_
    rintro ⟨hnew, b, hb, hbid, hib⟩
    exact ⟨hnew, b, hb, List.mem_append_right _ hbid, hib⟩

/-- The ids around and in the branches. -/
theorem keeps_attach (hlt : ∀ d ∈ t.root.nodes, d.id < n)
    (h : ∀ b ∈ branches, ∃ s ∈ t.root.nodes, Renewed n s b)
    (hapart : ∀ b ∈ branches, ∀ b' ∈ branches, b.id ≠ b'.id → Apart n b b')
    {c : Composite} (hc : c ∈ t.root.nodes) :
    Keeps n branches (c.nodes.map Composite.id)
      ((attach branches c).nodes.map Composite.id) := by
  induction c using Composite.induction with
  | h c ih =>
      cases c with
      | leaf kind id name =>
          rw [attach]
          exact ⟨List.nodup_singleton id, fun i hi => .inl hi⟩
      | node kind id name sons =>
          have hself : id ∈ (Composite.node kind id name sons).nodes.map Composite.id :=
            List.mem_map_of_mem (Composite.mem_nodes_self (.node kind id name sons))
          rw [attach]
          cases hbranch : branchOf branches id with
          | some b =>
              have hb := List.mem_of_find?_eq_some hbranch
              obtain ⟨s, hs, hrenewed⟩ := h b hb
              have hid : b.id = id := by
                have hfind := List.find?_some hbranch
                exact beq_iff_eq.mp hfind
              obtain rfl := t.eq_of_id_eq hs hc (hrenewed.id.symm.trans hid)
              refine ⟨hrenewed.nodup, fun i hi => (hrenewed.mem i hi).imp_right fun hnew => ?_⟩
              exact ⟨hnew, b, hb, hid ▸ hself, hi⟩
          | none =>
              have hroot : ∀ d ∈ sons, d ∈ t.root.nodes := fun d hd =>
                Composite.nodes_trans hc (Composite.son_mem_nodes (c := .node kind id name sons) hd)
              have hdistinct := t.distinct.node hc
              rw [Composite.Distinct, Composite.nodes_eq, List.map_cons, List.nodup_cons]
                at hdistinct
              have hids : ∀ cs : List Composite, (∀ d ∈ cs, d ∈ sons) →
                  ∀ i ∈ (cs.flatMap Composite.nodes).map Composite.id, i < n := by
                intro cs hcs i hi
                obtain ⟨e, he, rfl⟩ := List.mem_map.mp hi
                obtain ⟨d, hd, he⟩ := List.mem_flatMap.mp he
                exact hlt e (Composite.nodes_trans (hroot d (hcs d hd)) he)
              have hsons : ∀ cs : List Composite, (∀ d ∈ cs, d ∈ sons) →
                  ((cs.flatMap Composite.nodes).map Composite.id).Nodup →
                  Keeps n branches ((cs.flatMap Composite.nodes).map Composite.id)
                    (((attachSons branches cs).flatMap Composite.nodes).map Composite.id) := by
                intro cs hcs hnodup
                induction cs with
                | nil => exact ⟨.nil, List.forall_mem_nil _⟩
                | cons d cs ihcs =>
                    have hlts := hids (d :: cs) hcs
                    rw [List.forall_mem_cons] at hcs
                    rw [List.flatMap_cons, List.map_append] at hnodup hlts ⊢
                    rw [attachSons, List.flatMap_cons, List.map_append]
                    exact (ih d hcs.1 (hroot d hcs.1)).append
                      (ihcs hcs.2 (List.nodup_append.mp hnodup).2.1) hapart hnodup hlts
              have hkeeps := hsons sons (fun _ hd => hd) hdistinct.2
              rw [Option.getD_none, Composite.nodes_eq, Composite.nodes_eq, List.map_cons,
                List.map_cons]
              refine ⟨List.nodup_cons.mpr ⟨fun hi => ?_, hkeeps.nodup⟩,
                List.forall_mem_cons.mpr ⟨.inl List.mem_cons_self, fun i hi => ?_⟩⟩
              · obtain hold | ⟨hnew, _⟩ := hkeeps.mem id hi
                · exact hdistinct.1 hold
                · exact absurd (hlt _ hc) (Nat.not_lt.mpr hnew)
              · refine (hkeeps.mem i hi).imp (List.mem_cons_of_mem _) ?_
                rintro ⟨hnew, b, hb, hbid, hib⟩
                exact ⟨hnew, b, hb, List.mem_cons_of_mem _ hbid, hib⟩

end Attach

/-- What the whole of automatic injection makes of a tree. -/
theorem autoInject_makes {t : ParsedTree} {g : TSGenerator} {returned : Nat → Bool}
    {c : Composite} {st st' : Injection} (hids : ∀ d ∈ t.root.nodes, d.id < st.nextId)
    (h : autoInject rand g returned t.root st = some (c, st')) :
    Injected t.root.shape c.shape ∧ (c.nodes.map Composite.id).Nodup := by
  rw [autoInject_eq] at h
  obtain ⟨⟨branches, st₁⟩, hsends, heq⟩ := Option.map_eq_some_iff.mp h
  cases heq
  have hsub : ∀ s ∈ t.root.sendsBelow, s ∈ t.root.nodes := fun s hs =>
    Composite.sendsBelow_subset hs
  obtain ⟨hall, hapart⟩ := injectSends_renewed (n := st.nextId) (Nat.le_refl _)
    (fun s hs => Composite.isLeaf_of_isSend (Composite.isSend_of_mem_sendsBelow hs))
    (fun s hs => ⟨t.distinct.node (hsub s hs), fun i hi => by
      obtain ⟨d, hd, rfl⟩ := List.mem_map.mp hi
      exact hids d (Composite.nodes_trans (hsub s hs) hd)⟩) hsends
  have hrenewed : ∀ b ∈ branches, ∃ s ∈ t.root.nodes, Renewed st.nextId s b := by
    intro b hb
    obtain ⟨s, hs, hrenewed⟩ := (hall b hb).1
    exact ⟨s, hsub s hs, hrenewed⟩
  have : Std.Symm (Apart st.nextId) := ⟨fun b b' hbb i hi hib' hib => hbb i hi hib hib'⟩
  refine ⟨injected_attach hrenewed t.root.mem_nodes_self,
    (keeps_attach hids hrenewed (fun b hb b' hb' hne => ?_) t.root.mem_nodes_self).nodup⟩
  exact hapart.forall hb hb' fun heq => hne (congrArg Composite.id heq)

/-- No node of the injected tree has been deleted if and only if no string leaf without text
is reached. -/
theorem autoInject_live_iff {t : ParsedTree} {g : TSGenerator} {returned : Nat → Bool}
    {c : Composite} {st st' : Injection} (hids : ∀ d ∈ t.root.nodes, d.id < st.nextId)
    (hst : st.deleted = []) (h : autoInject rand g returned t.root st = some (c, st')) :
    (∀ d ∈ c.nodes, d.id ∉ st'.deleted) ↔ ∀ p id name,
      t.root.nodeAt p = some (.leaf .stringLeaf id name) → t.root.Reached returned p →
        trim name ≠ some [] := by
  rw [autoInject_eq] at h
  obtain ⟨⟨branches, st₁⟩, hsends, heq⟩ := Option.map_eq_some_iff.mp h
  cases heq
  have hdangling := dangling_iff hids hst hsends
  constructor
  · intro hlive p id name hleaf hreached htrim
    obtain ⟨i, hi, hmem⟩ := hdangling.mpr ⟨p, id, name, hleaf, hreached, htrim⟩
    obtain ⟨d, hd, rfl⟩ := List.mem_map.mp hmem
    exact hlive d hd hi
  · intro htext d hd hi
    obtain ⟨p, id, name, hleaf, hreached, htrim⟩ :=
      hdangling.mp ⟨d.id, hi, List.mem_map_of_mem hd⟩
    exact htext p id name hleaf hreached htrim

/-- An injected tree of a grammar can be written.  Its inner nodes are named as rules if and
only if no rule that the first one leads to has brackets, alternatives or counts in its body. -/
theorem printable_of_grammar {r : Rule} {rules : List Rule} {values : Values} {fuel : Nat}
    {b : Built Tree} (h : rulelist (r :: rules) = .ok values)
    (hexpand : expand values r.name fuel = some b) (hundefined : b.undefined = [])
    {c : Composite} (hinjected : Injected b.tree c.shape) :
    c.shape.Printable ∧ c.isLeaf = false ∧ ((∀ d ∈ inner c, IsName d.name) ↔
      ∀ n, ReflTransGen (Refers values) r.name n → Plain values n) := by
  have hacc := acc_of_expand (source_rulelist h) hexpand
  obtain ⟨_, b', ⟨enough, hb'⟩, hexpands, _, _, hfull⟩ := expansion_correct r rules h
    ((Reach.acc_iff_acyclic (finite_reach values r.name)).mp hacc)
  obtain rfl := expand_unique hexpand (hb' enough (Nat.le_refl _))
  obtain ⟨hfull, _⟩ := hfull hundefined
  obtain ⟨name, hname⟩ : ∃ name : Lexeme rulename, name.text = r.name := by
    cases r with
    | defined name => exact ⟨name, rfl⟩
    | definedWith name => exact ⟨name, rfl⟩
    | incremental name => exact ⟨name, rfl⟩
  rw [← hname] at hexpands
  have hnamed := hexpands.named_iff (source_rulelist h) (.reference (isName_rulename name)) hfull
  rw [Tree.references, List.forall_mem_singleton, Tree.sons, and_iff_right rfl, hname] at hnamed
  refine ⟨hinjected.printable (hexpands.printable (parsed_rulelist h) (.reference name) hfull),
    ?_, ?_⟩
  · generalize b.tree = u at hexpands hinjected
    cases c with
    | leaf => cases hexpands <;> cases hinjected
    | node => rfl
  · rw [← hnamed, ← hinjected.named_iff, c.named_shape_iff]

/-- The injected tree of a grammar is written to a file if and only if no string leaf without
text is reached by the injector.  The file is accepted if and only if no rule that the first
one leads to has brackets, alternatives or counts in its body, and then the parser builds a
tree from it that generates what the injected tree does. -/
theorem injected_file_accepted_iff {r : Rule} {rules : List Rule} {values : Values} {fuel : Nat}
    {b : Built Tree} (h : rulelist (r :: rules) = .ok values)
    (hexpand : expand values r.name fuel = some b) (hundefined : b.undefined = [])
    {t : ParsedTree} (ht : t.root.shape = b.tree) {g : TSGenerator} {returned : Nat → Bool}
    {c : Composite} {st st' : Injection} (hids : ∀ d ∈ t.root.nodes, d.id < st.nextId)
    (hst : st.deleted = []) (hinject : autoInject rand g returned t.root st = some (c, st')) :
    ((∃ text, write st'.deleted c = some text) ↔ ∀ p id name,
      t.root.nodeAt p = some (.leaf .stringLeaf id name) → t.root.Reached returned p →
        trim name ≠ some []) ∧
    ∀ text, write st'.deleted c = some text →
      (Accepted text ↔ ∀ n, ReflTransGen (Refers values) r.name n → Plain values n) ∧
      (Accepted text → ReadAs text c.shape) := by
  obtain ⟨hinjected, hdistinct⟩ := autoInject_makes hids hinject
  rw [ht] at hinjected
  obtain ⟨hprint, hinner, hnames⟩ := printable_of_grammar h hexpand hundefined hinjected
  rw [← hnames]
  exact ⟨(written_iff hprint).trans (autoInject_live_iff hids hst hinject),
    fun _ hwrite => written_accepted_iff hprint hinner hdistinct hwrite⟩

theorem mem_rulename_s : ascii "s" ∈ rulename.matches' :=
  mem_rulename.mpr ⟨115, [], by decide, List.forall_mem_nil _, rfl⟩

theorem mem_command_send : ascii "<%UDP_send%>" ∈ command.matches' :=
  (rmatch_iff_matches' _ _).mp (by decide +kernel)

/-- `s = <%UDP_send%> "a"`. -/
def sendRule : Rule :=
  .definedWith ⟨ascii "s", mem_rulename_s⟩ ⟨ascii "<%UDP_send%>", mem_command_send⟩
    (.concatenation (quotedText (ascii "a") isText_a))

/-- The map of `r = s` and `s = <%UDP_send%> "a"`. -/
def sendValues : Values :=
  [(ascii "r", .node .composite (ascii "r") [.node .composite (ascii "s") []]),
   (ascii "s", .node .composite (ascii "s") [.leaf .commandComposite (ascii "<%UDP_send%>"),
     .leaf .stringLeaf (ascii "\\\"a\\\"")])]

theorem plain_sendValues (n : Bytes) : Plain sendValues n := by
  intro node hnode
  obtain ⟨l₁, l₂, hl, _⟩ := List.lookup_eq_some_iff.mp hnode
  have hmem : (n, node) ∈ sendValues := hl ▸ List.mem_append_right l₁ List.mem_cons_self
  simp only [sendValues, List.mem_cons, List.not_mem_nil, or_false] at hmem
  obtain heq | heq := hmem
  · cases heq
    exact List.forall_mem_singleton.mpr rfl
  · cases heq
    exact List.forall_mem_cons.mpr ⟨rfl, List.forall_mem_singleton.mpr rfl⟩

theorem injected_file_accepted_iff_send : ∃ c st' text,
    autoInject (fun _ _ _ => 0) .exp (fun _ => true) (sendInSequence (ascii "a")).root
      { nextId := 4 } = some (c, st') ∧
      write st'.deleted c = some text ∧ Accepted text ∧ ReadAs text c.shape := by
  have hvalues : rulelist [firstOfTwo, sendRule] = .ok sendValues := rfl
  obtain ⟨b, hexpand, hundefined, htree⟩ : ∃ b, expand sendValues firstOfTwo.name 4 = some b ∧
      b.undefined = [] ∧ (sendInSequence (ascii "a")).root.shape = b.tree := ⟨_, rfl, rfl, rfl⟩
  obtain ⟨c, st', hinject⟩ : ∃ c st', autoInject (fun _ _ _ => 0) .exp (fun _ => true)
      (sendInSequence (ascii "a")).root { nextId := 4 } = some (c, st') := ⟨_, _, rfl⟩
  have hids : ∀ d ∈ (sendInSequence (ascii "a")).root.nodes, d.id < 4 := by decide
  obtain ⟨hwritten, hfile⟩ :=
    injected_file_accepted_iff hvalues hexpand hundefined htree hids rfl hinject
  obtain ⟨text, hwrite⟩ := hwritten.mpr fun _ _ _ hleaf _ => trim_sendInSequence hleaf
  obtain ⟨haccepted, hread⟩ := hfile text hwrite
  have haccepted := haccepted.mpr fun n _ => plain_sendValues n
  exact ⟨c, st', text, hinject, hwrite, haccepted, hread haccepted⟩

end AnomalyInjector

end Stress

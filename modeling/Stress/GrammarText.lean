import Stress.Verdict

/-!
# Texts of rules

What the programs of the tester print for its own parser is a row of words on each line: a
name, an equal sign, and the elements behind it, with blanks between them.  `Row.scans`
says that such a line is scanned word for word.

The rules of a file are a list of names with their bodies.  When the first name leads to
all the others and to no more, and never back, `Complete.parse` says that the parser accepts
the file, and that the tree it builds is the first rule with the others in the place of
their names.
-/

namespace Stress

open Relation RegularExpression

/-! ## Words -/

/-- A token that stands between blanks. -/
structure Token.Word (t : Token) : Prop where
  munch : ∀ rest : Bytes, (∀ c ∈ rest.head?, isStop c = true) →
    munch (t.text ++ rest) = some (t.text.length, t.rule)
  emits : t.rule.emits = true
  valid : t.isInvalid = false
  front : ∃ c s, t.text = c :: s ∧ isBlank c = false

theorem Token.word_equal : Token.Word ⟨.equal, ascii "="⟩ where
  munch rest h := by
    refine munch_equal fun c hc => ?_
    have hstop := h c hc
    rintro rfl
    cases hstop
  emits := rfl
  valid := rfl
  front := ⟨61, [], rfl, rfl⟩

theorem Token.word_slash : slash.Word where
  munch rest _ := munch_slash rest
  emits := rfl
  valid := rfl
  front := ⟨47, [], rfl, rfl⟩

theorem Token.word_command (t : Lexeme command) : Token.Word ⟨.command, t.text⟩ where
  munch rest _ := munch_command t rest
  emits := rfl
  valid := rfl
  front := by
    obtain ⟨_, hopen, _, _, ht⟩ := mem_mul.mp t.mem
    rw [mem_str.mp hopen] at ht
    exact ⟨60, _, ht.symm, rfl⟩

theorem Token.word_rulename {t : Lexeme rulename} (hdash : 45 ∈ t.text) :
    Token.Word ⟨.rulename, t.text⟩ where
  munch rest h := munch_rulename t.mem hdash h
  emits := rfl
  valid := rfl
  front := by
    have hletter : (bytesOf isLetter).all (fun c => !isBlank c) = true := by decide +kernel
    obtain ⟨c, s, hc, _, ht⟩ := mem_rulename.mp t.mem
    refine ⟨c, s, ht, ?_⟩
    simpa using List.all_eq_true.mp hletter c (mem_bytesOf.mpr hc)

theorem Literal.word (l : Literal) : l.token.Word where
  munch rest h := munch_literal l h
  emits := by cases l <;> rfl
  valid := by cases l <;> rfl
  front := by
    have hnumval : ∀ {lower upper : String} {isDig : UInt8 → Bool} {w : Bytes},
        (ascii lower).head? = some 37 → (ascii upper).head? = some 37 →
        w ∈ (numval lower upper isDig).matches' → ∃ c s, w = c :: s ∧ isBlank c = false := by
      intro lower upper isDig w hlower hupper hw
      obtain ⟨v, hv, u, _, rfl⟩ := mem_mul.mp hw
      have hhead : v.head? = some 37 := by
        obtain hv | hv := mem_add.mp hv
        · rw [mem_str.mp hv, hlower]
        · rw [mem_str.mp hv, hupper]
      obtain ⟨s, rfl⟩ := List.head?_eq_some_iff.mp hhead
      exact ⟨37, s ++ u, rfl, rfl⟩
    cases l with
    | charval t =>
        obtain ⟨text, _, ht⟩ := mem_charval.mp t.mem
        exact ⟨34, _, ht, rfl⟩
    | binval t => exact hnumval rfl rfl t.mem
    | decval t => exact hnumval rfl rfl t.mem
    | hexval t => exact hnumval rfl rfl t.mem

/-! ## Rows of words -/

section Blanks

variable {s rest : Bytes} {ts us : List Token} {t : Token}

/-- Blanks in a row are one match. -/
theorem munch_blanks (k : Nat) (hs : ∀ c ∈ s.head?, isBlank c = false) :
    munch (32 :: (List.replicate k 32 ++ s)) = some (k + 1, .blank) := by
  refine munch_alone (by decide) (by decide) (Nat.succ_pos k) ?_
  have htake : (32 :: (List.replicate k 32 ++ s)).take (k + 1) = List.replicate (k + 1) 32 := by
    rw [List.take_succ_cons, List.take_left' (List.length_replicate), List.replicate_succ]
  refine longest_eq ?_ ?_ fun m hle hm => ?_
  · rw [List.length_cons, List.length_append, List.length_replicate]
    omega
  · rw [htake]
    refine mem_many1_cls.mpr ⟨by rw [List.replicate_succ]; exact List.cons_ne_nil _ _, ?_⟩
    intro c hc
    rw [List.eq_of_mem_replicate hc]
    rfl
  · by_contra hlt
    have hall := (mem_many1_cls.mp hm).2
    rw [← List.cons_append, ← List.replicate_succ] at hall hle
    cases s with
    | nil =>
        rw [List.append_nil, List.length_replicate] at hle
        omega
    | cons c s =>
        have hmem : c ∈ (List.replicate (k + 1) 32 ++ c :: s).take m :=
          mem_take_of_lt (by rw [List.length_replicate]; omega)
        have hblank := hall c hmem
        rw [hs c rfl] at hblank
        cases hblank

theorem Scans.blanks (k : Nat) (hs : ∀ c ∈ s.head?, isBlank c = false) (h : Scans s ts) :
    Scans (List.replicate k 32 ++ s) ts := by
  cases k with
  | zero => exact h
  | succ k =>
      obtain ⟨enough, h⟩ := h
      refine ⟨enough + 1, fun fuel hle => ?_⟩
      obtain ⟨n, rfl⟩ : ∃ n, fuel = n + 1 := ⟨fuel - 1, by omega⟩
      rw [List.replicate_succ, List.cons_append, scan, munch_blanks k hs]
      simp only
      rw [List.drop_succ_cons, List.drop_left' (List.length_replicate), h n (by omega)]

/-- A text of words with blanks in front of each. -/
inductive Row : Bytes → List Token → Prop where
  | blanks (k : Nat) : Row (List.replicate k 32) []
  | word (k : Nat) {t : Token} {s : Bytes} {ts : List Token} (ht : t.Word) (h : Row s ts) :
      Row (List.replicate (k + 1) 32 ++ t.text ++ s) (t :: ts)

theorem Row.blank (h : Row s ts) : Row (32 :: s) ts := by
  cases h with
  | blanks k => exact .blanks (k + 1)
  | word k ht h => exact .word (k + 1) ht h

theorem Row.append {s' : Bytes} (h : Row s ts) (h' : Row s' us) : Row (s ++ s') (ts ++ us) := by
  induction h with
  | blanks k =>
      induction k with
      | zero => exact h'
      | succ k ih => exact ih.blank
  | word k ht _ ih =>
      rw [List.append_assoc, List.cons_append]
      exact .word k ht ih

theorem Row.single (ht : t.Word) (h : Row s ts) : Row (32 :: t.text ++ s) (t :: ts) :=
  .word 0 ht h

/-- Behind a word a row goes on with a blank or ends with its line. -/
theorem Row.stop (h : Row s ts) (rest : Bytes) :
    ∀ c ∈ (s ++ 10 :: rest).head?, isStop c = true := by
  cases h with
  | blanks k =>
      cases k with
      | zero =>
          intro c hc
          cases hc
          rfl
      | succ k =>
          intro c hc
          cases hc
          rfl
  | word k ht h =>
      intro c hc
      cases hc
      rfl

theorem Token.Word.scans (ht : t.Word) (hstop : ∀ c ∈ s.head?, isStop c = true)
    (h : Scans s ts) : Scans (t.text ++ s) (t :: ts) := by
  obtain ⟨c, w, htext, _⟩ := ht.front
  exact Scans.token (by rw [htext]; exact List.cons_ne_nil _ _) (ht.munch _ hstop) ht.emits h

/-- A row is scanned word for word up to the end of its line. -/
theorem Row.scans (h : Row s ts) (hrest : Scans rest us) :
    Scans (s ++ 10 :: rest) (ts ++ ⟨.crlf, [10]⟩ :: us) := by
  induction h with
  | blanks k =>
      refine Scans.blanks k (fun c hc => ?_)
        (Scans.token (w := [10]) (List.cons_ne_nil _ _) (munch_newline rest) rfl hrest)
      cases hc
      rfl
  | @word k t s ts ht hrow ih =>
      obtain ⟨c, w, htext, hc⟩ := ht.front
      rw [List.append_assoc, List.append_assoc]
      refine Scans.blanks (k + 1) (fun d hd => ?_) (ht.scans (hrow.stop rest) ih)
      rw [htext] at hd
      cases hd
      exact hc

theorem Row.unique (h : Row s ts) (h' : Row s us) : ts = us :=
  List.append_cancel_right ((h.scans .nil).unique (h'.scans .nil))

theorem Row.valid (h : Row s ts) : ∀ t ∈ ts, t.isInvalid = false := by
  induction h with
  | blanks => exact List.forall_mem_nil _
  | word k ht _ ih => exact List.forall_mem_cons.mpr ⟨ht.valid, ih⟩

end Blanks

/-! ## Books of rules -/

/-- The names of rules with their bodies. -/
abbrev Book := List (Bytes × List Tree)

/-- The map of a book. -/
def Book.values (book : Book) : Values := book.map fun p => (p.1, .node .composite p.1 p.2)

/-- The rule adds the entry to a map without one of its name. -/
structure Enters (p : Bytes × List Tree) (r : Rule) : Prop where
  name : r.name = p.1
  run : ∀ values, r.run values = .ok (addValue (.node .composite p.1 p.2) values)

namespace Book

variable {book : Book} {n m : Bytes} {us : List Tree} {node : Tree}

theorem rulelist {rules : List Rule} (h : List.Forall₂ Enters book rules)
    (hnodup : (book.map Prod.fst).Nodup) : rulelist rules = .ok book.values := by
  have hrun : ∀ values : Values, (∀ p ∈ book, values.lookup p.1 = none) →
      rules.foldlM Rule.run values = .ok (values ++ book.values) := by
    induction h with
    | nil =>
        intro values _
        rw [Book.values, List.map_nil, List.append_nil]
        rfl
    | @cons p r book rules henters _ ih =>
        intro values hfresh
        rw [List.map_cons, List.nodup_cons] at hnodup
        rw [List.forall_mem_cons] at hfresh
        have hadd : addValue (.node .composite p.1 p.2) values =
            values ++ [(p.1, .node .composite p.1 p.2)] := by
          rw [addValue, Tree.name, hfresh.1]
          rfl
        rw [List.foldlM_cons, henters.run, hadd]
        refine (ih hnodup.2 _ fun q hq => ?_).trans ?_
        · rw [List.lookup_append, hfresh.2 q hq, List.lookup_cons, List.lookup_nil]
          have hne : (q.1 == p.1) = false := by
            rw [beq_eq_false_iff_ne]
            exact fun heq => hnodup.1 (heq ▸ List.mem_map_of_mem hq)
          rw [hne]
          rfl
        · rw [List.append_assoc]
          rfl
  exact hrun [] fun _ _ => rfl

theorem lookup (hnodup : (book.map Prod.fst).Nodup) (h : (n, us) ∈ book) :
    book.values.lookup n = some (.node .composite n us) := by
  induction book with
  | nil => cases h
  | cons p book ih =>
      rw [List.map_cons, List.nodup_cons] at hnodup
      rw [Book.values, List.map_cons, List.lookup_cons]
      obtain rfl | h := List.mem_cons.mp h
      · rw [beq_self_eq_true]
      · have hne : (n == p.1) = false := by
          rw [beq_eq_false_iff_ne]
          rintro rfl
          exact hnodup.1 (List.mem_map.mpr ⟨_, h, rfl⟩)
        rw [hne]
        exact ih hnodup.2 h

theorem exists_of_lookup (h : book.values.lookup n = some node) :
    ∃ us, (n, us) ∈ book ∧ node = .node .composite n us := by
  obtain ⟨l₁, l₂, hl, _⟩ := List.lookup_eq_some_iff.mp h
  have hmem : (n, node) ∈ book.values := hl ▸ List.mem_append_right l₁ List.mem_cons_self
  obtain ⟨p, hp, heq⟩ := List.mem_map.mp hmem
  cases heq
  exact ⟨p.2, hp, rfl⟩

theorem refers_iff (hnodup : (book.map Prod.fst).Nodup) (h : (n, us) ∈ book) :
    Refers book.values n m ↔ m ∈ us.flatMap Tree.references := by
  constructor
  · rintro ⟨node, hnode, hm⟩
    rw [lookup hnodup h] at hnode
    cases hnode
    exact hm
  · exact fun hm => ⟨_, lookup hnodup h, hm⟩

/-- The rules lead from `n` to all the rules, to no others, and in no circle. -/
structure Complete (book : Book) (n : Bytes) : Prop where
  nodup : (book.map Prod.fst).Nodup
  acc : ∀ p ∈ book, Acc (flip (Refers book.values)) p.1
  closed : ∀ p ∈ book, ∀ m ∈ p.2.flatMap Tree.references, m ∈ book.map Prod.fst
  leads : ∀ m ∈ book.map Prod.fst, ReflTransGen (Refers book.values) n m

theorem isSome_lookup (hnodup : (book.map Prod.fst).Nodup) :
    (book.values.lookup m).isSome = true ↔ m ∈ book.map Prod.fst := by
  rw [Option.isSome_iff_exists]
  constructor
  · rintro ⟨node, hnode⟩
    obtain ⟨us, hus, _⟩ := exists_of_lookup hnode
    exact List.mem_map.mpr ⟨_, hus, rfl⟩
  · intro hm
    obtain ⟨p, hp, rfl⟩ := List.mem_map.mp hm
    exact ⟨_, lookup hnodup hp⟩

theorem Complete.reaches_iff (h : book.Complete n) (hn : n ∈ book.map Prod.fst) (m : Bytes) :
    ReflTransGen (Refers book.values) n m ↔ (book.values.lookup m).isSome = true := by
  rw [isSome_lookup h.nodup]
  constructor
  · intro hreach
    obtain rfl | ⟨k, _, node, hnode, hm⟩ := hreach.cases_tail
    · exact hn
    · obtain ⟨us, hus, rfl⟩ := exists_of_lookup hnode
      exact h.closed _ hus m hm
  · exact h.leads m

theorem Complete.not_recursive (h : book.Complete n) (m : Bytes) :
    ¬ TransGen (Refers book.values) m m := by
  intro hcycle
  obtain ⟨k, ⟨node, hnode, _⟩, _⟩ := TransGen.head'_iff.mp hcycle
  obtain ⟨us, hus, _⟩ := exists_of_lookup hnode
  exact Reach.not_transGen_of_acc (h.acc _ hus) hcycle

/-! ## The parse of a file -/

/-- A file of lines with the rules of a complete book is accepted, and its tree is the
expansion of the first rule. -/
theorem Complete.parse {s : Bytes} {ls : List Line} (h : Complete ((n, us) :: book) n)
    (hscan : Scans s (ls.flatMap Line.tokens))
    (hvalid : ∀ t ∈ ls.flatMap Line.tokens, t.isInvalid = false)
    (hrules : List.Forall₂ Enters ((n, us) :: book) (ls.filterMap Line.rule)) :
    ∃ p r rest fuel b, ABNFParser.Parse s (.done p (r :: rest)) ∧ p.parsingResult = true ∧
      p.NoErrors ∧ Stress.rulelist (r :: rest) = .ok (values ((n, us) :: book)) ∧
      expand (values ((n, us) :: book)) r.name fuel = some b ∧
      Expands (values ((n, us) :: book)) (.node .composite n []) b.tree := by
  have hne : ls ≠ [] := by
    rintro rfl
    cases hrules
  have hderives := derives_lines hne
  have hrulelist := rulelist hrules h.nodup
  have hn : n ∈ List.map Prod.fst ((n, us) :: book) := List.mem_cons_self
  generalize hrs : ls.filterMap Line.rule = rules at hderives hrules hrulelist
  cases hrules with
  | @cons _ r _ rules hr _ =>
      have hname : r.name = n := hr.name
      have hacc : Reach.Acyclic (Refers (values ((n, us) :: book))) r.name := by
        rw [hname]
        exact (Reach.acc_iff_acyclic (finite_reach _ _)).mp (h.acc _ List.mem_cons_self)
      obtain ⟨_, b, ⟨enough, hb⟩, hexpands, _⟩ := expansion_correct r rules hrulelist hacc
      have hexpand := hb enough (Nat.le_refl enough)
      obtain ⟨hundefined, hunreferenced⟩ :=
        (symbols_checked_iff hrulelist h.not_recursive hexpand).mpr fun m => by
          rw [hname]
          exact h.reaches_iff hn m
      have hreturned : returned (ls.flatMap Line.tokens) = ls.flatMap Line.tokens :=
        List.filter_eq_self.mpr fun t ht => by rw [hvalid t ht]; rfl
      have hparse := ABNFParser.Parse.checked hscan (.accept (hreturned.symm ▸ hderives) hrulelist)
        hexpand
      rw [hundefined, hunreferenced] at hparse
      rw [hname] at hexpands
      exact ⟨_, r, rules, enough, b, hparse, rfl, noErrors_yylex.mpr hvalid, hrulelist, hexpand,
        hexpands⟩

end Book

end Stress

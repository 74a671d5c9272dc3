import Stress.Driver
import Stress.Tokens

/-!
# The productions as tokens

Which sequences of tokens the grammar of `src/parser.yy` derives.  `Derives` has a
constructor for each production of `rules`, and the functions `tokens` write the
other productions out.

The grammar is unambiguous (`Derives.unique`), so the rule list that a text stands
for is a matter of its tokens.  An element ends by itself, and what follows a
concatenation or an alternation begins no element.
-/

namespace Stress

/-! ## The tokens of the productions -/

def Bracket.opening : Bracket → Token
  | .group => ⟨.leftbracket, ascii "("⟩
  | .option => ⟨.leftbracketsq, ascii "["⟩

def Bracket.closing : Bracket → Token
  | .group => ⟨.rightbracket, ascii ")"⟩
  | .option => ⟨.rightbracketsq, ascii "]"⟩

def slash : Token := ⟨.slash, ascii "/"⟩

mutual

def AbnfElement.tokens : AbnfElement → List Token
  | .rulename t => [⟨.rulename, t.text⟩]
  | .literal l => [l.token]
  | .bracket b a => b.opening :: (a.tokens ++ [b.closing])
  | .bracketCommand b t => [b.opening, ⟨.command, t.text⟩, b.closing]
  | .bracketWith b t a => b.opening :: ⟨.command, t.text⟩ :: (a.tokens ++ [b.closing])

def Repetition.tokens : Repetition → List Token
  | .element e => e.tokens
  | .repeated t e => ⟨.repeat, t.text⟩ :: e.tokens

def Concatenation.tokens : Concatenation → List Token
  | .repetition r => r.tokens
  | .append c r => c.tokens ++ r.tokens

def Alternation.tokens : Alternation → List Token
  | .concatenation c => c.tokens
  | .alternative a c => a.tokens ++ slash :: c.tokens

end

/-- A rule without the `cnl` at its end. -/
def Rule.tokens : Rule → List Token
  | .defined t e => ⟨.rulename, t.text⟩ :: ⟨.equal, ascii "="⟩ :: e.tokens
  | .definedWith t c e =>
      ⟨.rulename, t.text⟩ :: ⟨.equal, ascii "="⟩ :: ⟨.command, c.text⟩ :: e.tokens
  | .incremental t e => ⟨.rulename, t.text⟩ :: ⟨.increqual, ascii "=/"⟩ :: e.tokens

/-- `rules`. -/
inductive Derives : List Token → List Rule → Prop where
  | rule (r : Rule) {t : Token} (ht : t.isCnl = true) : Derives (r.tokens ++ [t]) [r]
  | cnl {t : Token} (ht : t.isCnl = true) : Derives [t] []
  | rulesRule {ts : List Token} {rs : List Rule} (h : Derives ts rs) (r : Rule) {t : Token}
      (ht : t.isCnl = true) : Derives (ts ++ (r.tokens ++ [t])) (rs ++ [r])
  | rulesCnl {ts : List Token} {rs : List Rule} (h : Derives ts rs) {t : Token}
      (ht : t.isCnl = true) : Derives (ts ++ [t]) rs

/-! ## Where the parts begin -/

/-- The tokens an element begins with. -/
def Token.startsElement (t : Token) : Bool :=
  [.rulename, .charval, .binval, .decval, .hexval, .leftbracket, .leftbracketsq].contains t.rule

/-- The tokens a repetition begins with. -/
def Token.startsItem (t : Token) : Bool := t.startsElement || t.rule == .repeat

theorem Literal.startsElement (l : Literal) : l.token.startsElement = true := by
  cases l <;> rfl

theorem AbnfElement.exists_tokens (e : AbnfElement) :
    ∃ t ts, e.tokens = t :: ts ∧ t.startsElement = true := by
  cases e with
  | rulename t =>
      rw [tokens]
      exact ⟨_, _, rfl, rfl⟩
  | literal l =>
      rw [tokens]
      exact ⟨_, _, rfl, l.startsElement⟩
  | bracket b a =>
      rw [tokens]
      exact ⟨_, _, rfl, by cases b <;> rfl⟩
  | bracketCommand b t =>
      rw [tokens]
      exact ⟨_, _, rfl, by cases b <;> rfl⟩
  | bracketWith b t a =>
      rw [tokens]
      exact ⟨_, _, rfl, by cases b <;> rfl⟩

theorem Repetition.exists_tokens (r : Repetition) :
    ∃ t ts, r.tokens = t :: ts ∧ t.startsItem = true := by
  cases r with
  | element e =>
      rw [tokens]
      obtain ⟨t, ts, hts, ht⟩ := e.exists_tokens
      exact ⟨t, ts, hts, by rw [Token.startsItem, ht]; rfl⟩
  | repeated t e =>
      rw [tokens]
      exact ⟨_, _, rfl, rfl⟩

theorem Concatenation.tokens_eq (c : Concatenation) :
    c.tokens = c.items.flatMap Repetition.tokens := by
  match c with
  | .repetition r => rw [tokens, items, List.flatMap_singleton]
  | .append c r => rw [tokens, items, List.flatMap_append, List.flatMap_singleton, c.tokens_eq]

theorem Concatenation.exists_tokens (c : Concatenation) :
    ∃ t ts, c.tokens = t :: ts ∧ t.startsItem = true := by
  match c with
  | .repetition r =>
      rw [tokens]
      exact r.exists_tokens
  | .append c r =>
      obtain ⟨t, ts, hts, ht⟩ := c.exists_tokens
      rw [tokens, hts]
      exact ⟨t, _, rfl, ht⟩

/-- The first alternative and the others, each behind a slash. -/
theorem Alternation.tokens_eq (a : Alternation) : ∃ c cs, a.concatenations = c :: cs ∧
    a.tokens = c.tokens ++ cs.flatMap fun d => slash :: d.tokens := by
  match a with
  | .concatenation c =>
      rw [tokens, concatenations]
      exact ⟨c, [], rfl, by rw [List.flatMap_nil, List.append_nil]⟩
  | .alternative a d =>
      obtain ⟨c, cs, hcs, htokens⟩ := a.tokens_eq
      rw [tokens, concatenations, hcs, htokens]
      refine ⟨c, cs ++ [d], rfl, ?_⟩
      rw [List.flatMap_append, List.flatMap_singleton, List.append_assoc]

theorem Alternation.exists_tokens (a : Alternation) :
    ∃ t ts, a.tokens = t :: ts ∧ t.startsItem = true := by
  obtain ⟨c, cs, _, htokens⟩ := a.tokens_eq
  obtain ⟨t, ts, hts, ht⟩ := c.exists_tokens
  rw [htokens, hts]
  exact ⟨t, _, rfl, ht⟩

/-! ## The grammar is unambiguous -/

theorem Concatenation.items_injective {c d : Concatenation} (h : c.items = d.items) : c = d := by
  have hsingle : ∀ {r r' : Repetition} {d : Concatenation}, d.items ++ [r'] ≠ [r] := by
    intro r r' d heq
    have hlen := congrArg List.length heq
    have hpos := d.length_items_pos
    rw [List.length_append, List.length_singleton, List.length_singleton] at hlen
    omega
  match c, d with
  | .repetition r, .repetition r' =>
      rw [items, items] at h
      rw [(List.cons.inj h).1]
  | .repetition r, .append d r' => exact absurd h.symm hsingle
  | .append c r, .repetition r' => exact absurd h hsingle
  | .append c r, .append d r' =>
      obtain ⟨hitems, hlast⟩ := List.append_inj' h rfl
      rw [items_injective hitems, (List.cons.inj hlast).1]

theorem Alternation.concatenations_ne_nil (a : Alternation) : a.concatenations ≠ [] := by
  obtain ⟨c, cs, hcs, _⟩ := a.tokens_eq
  rw [hcs]
  exact nofun

theorem Alternation.concatenations_injective {a b : Alternation}
    (h : a.concatenations = b.concatenations) : a = b := by
  have hsingle : ∀ {c c' : Concatenation} {a : Alternation}, a.concatenations ++ [c'] ≠ [c] := by
    intro c c' a heq
    have hlen := congrArg List.length heq
    have hpos := List.length_pos_iff.mpr a.concatenations_ne_nil
    rw [List.length_append, List.length_singleton, List.length_singleton] at hlen
    omega
  match a, b with
  | .concatenation c, .concatenation c' =>
      rw [concatenations, concatenations] at h
      rw [(List.cons.inj h).1]
  | .concatenation c, .alternative b c' => exact absurd h.symm hsingle
  | .alternative a c, .concatenation c' => exact absurd h hsingle
  | .alternative a c, .alternative b c' =>
      obtain ⟨hfront, hlast⟩ := List.append_inj' h rfl
      rw [concatenations_injective hfront, (List.cons.inj hlast).1]

/-- The word of `x` can be told from that of any other and from what follows, where
what follows begins as `p` says. -/
def Distinct {α β : Type} (f : α → List β) (p : β → Prop) (x : α) : Prop :=
  ∀ y rest rest', (∀ b ∈ rest.head?, p b) → (∀ b ∈ rest'.head?, p b) →
    f x ++ rest = f y ++ rest' → x = y ∧ rest = rest'

/-- Words that begin alike can be told apart in a row, where what follows begins in
another way. -/
theorem Distinct.flatMap {α β : Type} {f : α → List β} {p q : β → Prop} {l : List α}
    (hdistinct : ∀ x ∈ l, Distinct f p x)
    (hstart : ∀ x, ∃ b bs, f x = b :: bs ∧ q b) (hq : ∀ b, q b → p b) :
    Distinct (fun l : List α => l.flatMap f) (fun b => p b ∧ ¬ q b) l := by
  intro l' rest rest' hrest hrest' heq
  have hhead : ∀ {x : α} {l : List α} {s s' : List β}, (∀ b ∈ s.head?, p b ∧ ¬ q b) →
      s ≠ f x ++ s' := by
    intro x l s s' hs heq
    obtain ⟨b, bs, hb, hqb⟩ := hstart x
    rw [hb] at heq
    exact (hs b (by rw [heq]; rfl)).2 hqb
  have hfollow : ∀ {l : List α} {s : List β}, (∀ b ∈ s.head?, p b ∧ ¬ q b) →
      ∀ b ∈ (l.flatMap f ++ s).head?, p b := by
    intro l s hs b hb
    cases l with
    | nil => exact (hs b hb).1
    | cons x l =>
        obtain ⟨c, cs, hc, hqc⟩ := hstart x
        rw [List.flatMap_cons, hc] at hb
        cases hb
        exact hq _ hqc
  induction l generalizing l' with
  | nil =>
      cases l' with
      | nil => exact ⟨rfl, heq⟩
      | cons y l' =>
          simp only [List.flatMap_nil, List.nil_append, List.flatMap_cons, List.append_assoc] at heq
          exact absurd heq (hhead (l := l') hrest)
  | cons x l ih =>
      rw [List.forall_mem_cons] at hdistinct
      cases l' with
      | nil =>
          simp only [List.flatMap_nil, List.nil_append, List.flatMap_cons, List.append_assoc] at heq
          exact absurd heq.symm (hhead (l := l) hrest')
      | cons y l' =>
          simp only [List.flatMap_cons, List.append_assoc] at heq
          obtain ⟨rfl, htail⟩ := hdistinct.1 y _ _ (hfollow hrest) (hfollow hrest') heq
          obtain ⟨rfl, hrests⟩ := ih hdistinct.2 l' htail
          exact ⟨rfl, hrests⟩

/-- What follows an alternation. -/
def Token.endsAlternation (t : Token) : Prop := t.startsItem = false ∧ t ≠ slash

theorem Lexeme.ext_text {P : RegularExpression UInt8} {t u : Lexeme P} (h : t.text = u.text) :
    t = u := by
  cases t
  cases u
  cases h
  rfl

theorem Concatenation.distinct {c : Concatenation}
    (h : ∀ r ∈ c.items, Distinct Repetition.tokens (fun _ => True) r) :
    Distinct Concatenation.tokens (fun t => t.startsItem = false) c := by
  intro d rest rest' hrest hrest' heq
  rw [c.tokens_eq, d.tokens_eq] at heq
  obtain ⟨hitems, hrests⟩ := Distinct.flatMap (q := fun t => t.startsItem = true) h
    Repetition.exists_tokens (fun _ _ => trivial) d.items rest rest'
    (fun t ht => ⟨trivial, by simp [hrest t ht]⟩) (fun t ht => ⟨trivial, by simp [hrest' t ht]⟩) heq
  exact ⟨Concatenation.items_injective hitems, hrests⟩

theorem Alternation.distinct {a : Alternation}
    (h : ∀ c ∈ a.concatenations, ∀ r ∈ c.items, Distinct Repetition.tokens (fun _ => True) r) :
    Distinct Alternation.tokens Token.endsAlternation a := by
  intro b rest rest' hrest hrest' heq
  have hslash : ∀ c ∈ a.concatenations, Distinct (fun d : Concatenation => slash :: d.tokens)
      (fun t => t.startsItem = false) c := by
    intro c hc d rest rest' hrest hrest' heq
    rw [List.cons_append, List.cons_append] at heq
    exact Concatenation.distinct (h c hc) d rest rest' hrest hrest' (List.cons.inj heq).2
  have hfollow : ∀ {cs : List Concatenation} {s : List Token},
      (∀ t ∈ s.head?, t.endsAlternation) →
      ∀ t ∈ (cs.flatMap (fun d => slash :: d.tokens) ++ s).head?, t.startsItem = false := by
    intro cs s hs t ht
    cases cs with
    | nil => exact (hs t ht).1
    | cons c cs =>
        cases ht
        rfl
  obtain ⟨c, cs, hcs, htokens⟩ := a.tokens_eq
  obtain ⟨d, ds, hds, htokens'⟩ := b.tokens_eq
  rw [htokens, htokens', List.append_assoc, List.append_assoc] at heq
  rw [hcs] at hslash h
  rw [List.forall_mem_cons] at hslash h
  obtain ⟨rfl, htail⟩ :=
    Concatenation.distinct h.1 d _ _ (hfollow hrest) (hfollow hrest') heq
  obtain ⟨rfl, hrests⟩ := Distinct.flatMap (q := fun t => t = slash) hslash.2
    (fun d => ⟨slash, d.tokens, rfl, rfl⟩) (fun t ht => ht ▸ rfl) ds rest rest'
    (fun t ht => hrest t ht) (fun t ht => hrest' t ht) htail
  exact ⟨concatenations_injective (hcs.trans hds.symm), hrests⟩

theorem Bracket.opening_injective {b b' : Bracket} (h : b.opening = b'.opening) : b = b' := by
  cases b <;> cases b' <;> first | rfl | cases h

theorem Bracket.endsAlternation_closing (b : Bracket) : b.closing.endsAlternation := by
  cases b <;> exact ⟨rfl, nofun⟩

theorem Literal.token_injective {l l' : Literal} (h : l.token = l'.token) : l = l' := by
  have htext := congrArg Token.text h
  cases l with
  | charval t =>
      cases l' with
      | charval t' => rw [Lexeme.ext_text htext]
      | _ => cases h
  | binval t =>
      cases l' with
      | binval t' => rw [Lexeme.ext_text htext]
      | _ => cases h
  | decval t =>
      cases l' with
      | decval t' => rw [Lexeme.ext_text htext]
      | _ => cases h
  | hexval t =>
      cases l' with
      | hexval t' => rw [Lexeme.ext_text htext]
      | _ => cases h

/-- The element is a rule name, a literal or something in brackets. -/
inductive AbnfElement.Form where
  | rulename
  | literal
  | bracket

def AbnfElement.form : AbnfElement → Form
  | .rulename _ => .rulename
  | .literal _ => .literal
  | .bracket _ _ => .bracket
  | .bracketCommand _ _ => .bracket
  | .bracketWith _ _ _ => .bracket

def Token.form (t : Token) : AbnfElement.Form :=
  match t.rule with
  | .rulename => .rulename
  | .leftbracket => .bracket
  | .leftbracketsq => .bracket
  | _ => .literal

/-- The first token says which of the three it is. -/
theorem AbnfElement.form_eq {e : AbnfElement} {t : Token} {ts : List Token}
    (h : e.tokens = t :: ts) : e.form = t.form := by
  cases e with
  | rulename u =>
      rw [tokens] at h
      cases h
      rfl
  | literal l =>
      rw [tokens] at h
      cases h
      cases l <;> rfl
  | bracket b a =>
      rw [tokens] at h
      cases h
      cases b <;> rfl
  | bracketCommand b u =>
      rw [tokens] at h
      cases h
      cases b <;> rfl
  | bracketWith b u a =>
      rw [tokens] at h
      cases h
      cases b <;> rfl

/-- An alternation does not begin as something that begins no item. -/
theorem Alternation.tokens_ne {a : Alternation} {t : Token} {us ts rest : List Token}
    (ht : t.startsItem = false) : a.tokens ++ us ++ rest ≠ t :: ts := by
  intro heq
  obtain ⟨u, us, hu, hstarts⟩ := a.exists_tokens
  rw [hu, List.cons_append, List.cons_append] at heq
  rw [(List.cons.inj heq).1, ht] at hstarts
  cases hstarts

/-- What stands between two brackets can be told apart. -/
theorem Alternation.distinct_closing {a a' : Alternation} {b : Bracket} {rest rest' : List Token}
    (h : Distinct Alternation.tokens Token.endsAlternation a)
    (heq : a.tokens ++ [b.closing] ++ rest = a'.tokens ++ [b.closing] ++ rest') :
    a = a' ∧ rest = rest' := by
  rw [List.append_assoc, List.append_assoc] at heq
  have hclosing : ∀ {s : List Token}, ∀ t ∈ ([b.closing] ++ s).head?, t.endsAlternation := by
    intro s t ht
    cases ht
    exact b.endsAlternation_closing
  obtain ⟨rfl, htail⟩ := h a' _ _ hclosing hclosing heq
  exact ⟨rfl, (List.cons.inj htail).2⟩

mutual

theorem AbnfElement.distinct (e : AbnfElement) :
    Distinct AbnfElement.tokens (fun _ => True) e := by
  intro e' rest rest' _ _ heq
  have hform : e.form = e'.form := by
    obtain ⟨t, ts, hts, _⟩ := e.exists_tokens
    obtain ⟨t', ts', hts', _⟩ := e'.exists_tokens
    rw [AbnfElement.form_eq hts, AbnfElement.form_eq hts']
    rw [hts, hts'] at heq
    rw [(List.cons.inj heq).1]
  match e with
  | .rulename t =>
      cases e' with
      | rulename t' =>
          rw [AbnfElement.tokens, AbnfElement.tokens] at heq
          obtain ⟨htoken, hrests⟩ := List.cons.inj heq
          rw [Lexeme.ext_text (congrArg Token.text htoken)]
          exact ⟨rfl, hrests⟩
      | _ => cases hform
  | .literal l =>
      cases e' with
      | literal l' =>
          rw [AbnfElement.tokens, AbnfElement.tokens] at heq
          obtain ⟨htoken, hrests⟩ := List.cons.inj heq
          rw [Literal.token_injective htoken]
          exact ⟨rfl, hrests⟩
      | _ => cases hform
  | .bracket b a =>
      cases e' with
      | bracket b' a' =>
          rw [AbnfElement.tokens, AbnfElement.tokens] at heq
          obtain ⟨hopen, htail⟩ := List.cons.inj heq
          cases Bracket.opening_injective hopen
          obtain ⟨rfl, hrests⟩ :=
            Alternation.distinct_closing (Alternation.distinct a.distinct_items) htail
          exact ⟨rfl, hrests⟩
      | bracketCommand b' t' =>
          rw [AbnfElement.tokens, AbnfElement.tokens] at heq
          exact absurd (List.cons.inj heq).2 (Alternation.tokens_ne rfl)
      | bracketWith b' t' a' =>
          rw [AbnfElement.tokens, AbnfElement.tokens] at heq
          exact absurd (List.cons.inj heq).2 (Alternation.tokens_ne rfl)
      | _ => cases hform
  | .bracketCommand b t =>
      cases e' with
      | bracket b' a' =>
          rw [AbnfElement.tokens, AbnfElement.tokens] at heq
          exact absurd (List.cons.inj heq).2.symm (Alternation.tokens_ne rfl)
      | bracketCommand b' t' =>
          rw [AbnfElement.tokens, AbnfElement.tokens] at heq
          obtain ⟨hopen, htail⟩ := List.cons.inj heq
          obtain ⟨htoken, htail⟩ := List.cons.inj htail
          cases Bracket.opening_injective hopen
          rw [Lexeme.ext_text (congrArg Token.text htoken)]
          exact ⟨rfl, (List.cons.inj htail).2⟩
      | bracketWith b' t' a' =>
          rw [AbnfElement.tokens, AbnfElement.tokens] at heq
          have htail := (List.cons.inj (List.cons.inj heq).2).2
          exact absurd htail.symm (Alternation.tokens_ne b.endsAlternation_closing.1)
      | _ => cases hform
  | .bracketWith b t a =>
      cases e' with
      | bracket b' a' =>
          rw [AbnfElement.tokens, AbnfElement.tokens] at heq
          exact absurd (List.cons.inj heq).2.symm (Alternation.tokens_ne rfl)
      | bracketCommand b' t' =>
          rw [AbnfElement.tokens, AbnfElement.tokens] at heq
          have htail := (List.cons.inj (List.cons.inj heq).2).2
          exact absurd htail (Alternation.tokens_ne b'.endsAlternation_closing.1)
      | bracketWith b' t' a' =>
          rw [AbnfElement.tokens, AbnfElement.tokens] at heq
          obtain ⟨hopen, htail⟩ := List.cons.inj heq
          obtain ⟨htoken, htail⟩ := List.cons.inj htail
          cases Bracket.opening_injective hopen
          obtain ⟨rfl, hrests⟩ :=
            Alternation.distinct_closing (Alternation.distinct a.distinct_items) htail
          rw [Lexeme.ext_text (congrArg Token.text htoken)]
          exact ⟨rfl, hrests⟩
      | _ => cases hform

theorem Repetition.distinct (r : Repetition) :
    Distinct Repetition.tokens (fun _ => True) r := by
  intro r' rest rest' hrest hrest' heq
  match r, r' with
  | .element e, .element e' =>
      rw [Repetition.tokens, Repetition.tokens] at heq
      obtain ⟨rfl, hrests⟩ := e.distinct e' rest rest' hrest hrest' heq
      exact ⟨rfl, hrests⟩
  | .repeated t e, .repeated t' e' =>
      rw [Repetition.tokens, Repetition.tokens, List.cons_append, List.cons_append] at heq
      obtain ⟨htoken, htail⟩ := List.cons.inj heq
      obtain ⟨rfl, hrests⟩ := e.distinct e' rest rest' hrest hrest' htail
      rw [Lexeme.ext_text (congrArg Token.text htoken)]
      exact ⟨rfl, hrests⟩
  | .element e, .repeated t e' =>
      obtain ⟨u, us, hu, hstarts⟩ := e.exists_tokens
      rw [Repetition.tokens, Repetition.tokens, hu] at heq
      rw [(List.cons.inj heq).1] at hstarts
      cases hstarts
  | .repeated t e, .element e' =>
      obtain ⟨u, us, hu, hstarts⟩ := e'.exists_tokens
      rw [Repetition.tokens, Repetition.tokens, hu] at heq
      rw [← (List.cons.inj heq).1] at hstarts
      cases hstarts

theorem Concatenation.distinct_items (c : Concatenation) :
    ∀ r ∈ c.items, Distinct Repetition.tokens (fun _ => True) r := by
  match c with
  | .repetition r =>
      rw [Concatenation.items]
      exact List.forall_mem_singleton.mpr r.distinct
  | .append c r =>
      rw [Concatenation.items]
      exact List.forall_mem_append.mpr
        ⟨c.distinct_items, List.forall_mem_singleton.mpr r.distinct⟩

theorem Alternation.distinct_items (a : Alternation) : ∀ c ∈ a.concatenations,
    ∀ r ∈ c.items, Distinct Repetition.tokens (fun _ => True) r := by
  match a with
  | .concatenation c =>
      rw [Alternation.concatenations]
      exact List.forall_mem_singleton.mpr c.distinct_items
  | .alternative a c =>
      rw [Alternation.concatenations]
      exact List.forall_mem_append.mpr
        ⟨a.distinct_items, List.forall_mem_singleton.mpr c.distinct_items⟩

end

theorem Rule.distinct (r : Rule) : Distinct Rule.tokens Token.endsAlternation r := by
  intro r' rest rest' hrest hrest' heq
  have hcommand : ∀ {a : Alternation} {t : Lexeme command} {s s' : List Token},
      a.tokens ++ s ≠ ⟨.command, t.text⟩ :: s' := by
    intro a t s s' heq
    rw [← List.append_nil a.tokens] at heq
    exact Alternation.tokens_ne rfl heq
  cases r with
  | defined t e =>
      cases r' with
      | defined t' e' =>
          obtain ⟨htoken, htail⟩ := List.cons.inj heq
          obtain ⟨rfl, hrests⟩ := Alternation.distinct e.distinct_items e' _ _ hrest hrest'
            (List.cons.inj htail).2
          rw [Lexeme.ext_text (congrArg Token.text htoken)]
          exact ⟨rfl, hrests⟩
      | definedWith t' c' e' =>
          exact absurd (List.cons.inj (List.cons.inj heq).2).2 hcommand
      | incremental t' e' => cases congrArg Token.rule (List.cons.inj (List.cons.inj heq).2).1
  | definedWith t c e =>
      cases r' with
      | defined t' e' => exact absurd (List.cons.inj (List.cons.inj heq).2).2.symm hcommand
      | definedWith t' c' e' =>
          obtain ⟨htoken, htail⟩ := List.cons.inj heq
          obtain ⟨hcommand, htail⟩ := List.cons.inj (List.cons.inj htail).2
          obtain ⟨rfl, hrests⟩ := Alternation.distinct e.distinct_items e' _ _ hrest hrest' htail
          rw [Lexeme.ext_text (congrArg Token.text htoken),
            Lexeme.ext_text (congrArg Token.text hcommand)]
          exact ⟨rfl, hrests⟩
      | incremental t' e' => cases congrArg Token.rule (List.cons.inj (List.cons.inj heq).2).1
  | incremental t e =>
      cases r' with
      | defined t' e' => cases congrArg Token.rule (List.cons.inj (List.cons.inj heq).2).1
      | definedWith t' c' e' => cases congrArg Token.rule (List.cons.inj (List.cons.inj heq).2).1
      | incremental t' e' =>
          obtain ⟨htoken, htail⟩ := List.cons.inj heq
          obtain ⟨rfl, hrests⟩ := Alternation.distinct e.distinct_items e' _ _ hrest hrest'
            (List.cons.inj htail).2
          rw [Lexeme.ext_text (congrArg Token.text htoken)]
          exact ⟨rfl, hrests⟩

/-! ## Lines -/

/-- A rule with its `cnl`, or a `cnl` alone. -/
structure Line where
  rule : Option Rule
  cnl : Token
  isCnl : cnl.isCnl = true

def Line.tokens (l : Line) : List Token := (l.rule.map Rule.tokens).getD [] ++ [l.cnl]

/-- A line begins with a rule name or is a `cnl`. -/
theorem Line.exists_tokens (l : Line) :
    ∃ t ts, l.tokens = t :: ts ∧ (t.rule = .rulename ∨ t.isCnl = true) := by
  obtain ⟨rule, cnl, hcnl⟩ := l
  cases rule with
  | none => exact ⟨cnl, [], rfl, .inr hcnl⟩
  | some r => cases r <;> exact ⟨_, _, rfl, .inl rfl⟩

theorem Token.endsAlternation_of_isCnl {t : Token} (h : t.isCnl = true) : t.endsAlternation := by
  obtain ⟨rule, text⟩ := t
  rw [isCnl, Bool.or_eq_true, beq_iff_eq, beq_iff_eq] at h
  obtain rfl | rfl := h <;> exact ⟨rfl, fun hslash => by cases hslash⟩

theorem Line.distinct (l : Line) : Distinct Line.tokens (fun _ => True) l := by
  intro l' rest rest' _ _ heq
  have hends : ∀ {t : Token} {s : List Token}, t.isCnl = true →
      ∀ u ∈ ([t] ++ s).head?, u.endsAlternation := by
    intro t s ht u hu
    cases hu
    exact Token.endsAlternation_of_isCnl ht
  have hrule : ∀ {r : Rule} {t : Token} {s s' : List Token}, t.isCnl = true →
      r.tokens ++ s ≠ t :: s' := by
    intro r t s s' ht heq
    cases r with
    | defined => cases (List.cons.inj heq).1; cases ht
    | definedWith => cases (List.cons.inj heq).1; cases ht
    | incremental => cases (List.cons.inj heq).1; cases ht
  obtain ⟨rule, cnl, hcnl⟩ := l
  obtain ⟨rule', cnl', hcnl'⟩ := l'
  rw [tokens, tokens, List.append_assoc, List.append_assoc] at heq
  cases rule with
  | none =>
      cases rule' with
      | none =>
          obtain ⟨rfl, hrests⟩ := List.cons.inj heq
          exact ⟨rfl, hrests⟩
      | some r' => exact absurd heq.symm (hrule hcnl)
  | some r =>
      cases rule' with
      | none => exact absurd heq (hrule hcnl')
      | some r' =>
          obtain ⟨rfl, htail⟩ := r.distinct r' _ _ (hends hcnl) (hends hcnl') heq
          obtain ⟨rfl, hrests⟩ := List.cons.inj htail
          exact ⟨rfl, hrests⟩

/-- The tokens are those of some lines. -/
theorem Derives.exists_lines {ts : List Token} {rs : List Rule} (h : Derives ts rs) :
    ∃ ls : List Line, ls ≠ [] ∧ ts = ls.flatMap Line.tokens ∧ rs = ls.filterMap Line.rule := by
  induction h with
  | @rule r t ht => exact ⟨[⟨some r, t, ht⟩], nofun, (List.append_nil _).symm, rfl⟩
  | @cnl t ht => exact ⟨[⟨none, t, ht⟩], nofun, rfl, rfl⟩
  | @rulesRule ts rs _ r t ht ih =>
      obtain ⟨ls, _, rfl, rfl⟩ := ih
      refine ⟨ls ++ [⟨some r, t, ht⟩], List.append_ne_nil_of_right_ne_nil _ nofun, ?_, ?_⟩
      · rw [List.flatMap_append, List.flatMap_singleton]
        rfl
      · rw [List.filterMap_append]
        rfl
  | @rulesCnl ts rs _ t ht ih =>
      obtain ⟨ls, _, rfl, rfl⟩ := ih
      refine ⟨ls ++ [⟨none, t, ht⟩], List.append_ne_nil_of_right_ne_nil _ nofun, ?_, ?_⟩
      · rw [List.flatMap_append, List.flatMap_singleton]
        rfl
      · rw [List.filterMap_append]
        exact (List.append_nil _).symm

/-- Lines that follow each other are derived. -/
theorem derives_lines {ls : List Line} (hne : ls ≠ []) :
    Derives (ls.flatMap Line.tokens) (ls.filterMap Line.rule) := by
  induction ls using List.reverseRecOn with
  | nil => exact absurd rfl hne
  | append_singleton ls l ih =>
      obtain ⟨rule, cnl, hcnl⟩ := l
      rw [List.flatMap_append, List.flatMap_singleton, List.filterMap_append]
      cases ls with
      | nil =>
          cases rule with
          | none => exact .cnl hcnl
          | some r => exact .rule r hcnl
      | cons l ls =>
          cases rule with
          | none =>
              have hrules : List.filterMap Line.rule [⟨none, cnl, hcnl⟩] = [] := rfl
              rw [hrules, List.append_nil]
              exact .rulesCnl (ih nofun) hcnl
          | some r => exact .rulesRule (ih nofun) r hcnl

/-- A sequence of tokens stands for one rule list. -/
theorem Derives.unique {ts : List Token} {rs rs' : List Rule} (h : Derives ts rs)
    (h' : Derives ts rs') : rs = rs' := by
  obtain ⟨ls, _, rfl, rfl⟩ := h.exists_lines
  obtain ⟨ls', _, heq, rfl⟩ := h'.exists_lines
  have hrows : ls.flatMap Line.tokens ++ [] = ls'.flatMap Line.tokens ++ [] := by rw [heq]
  obtain ⟨rfl, _⟩ := Distinct.flatMap (q := fun t => t.rule = .rulename ∨ t.isCnl = true)
    (fun l (_ : l ∈ ls) => l.distinct) Line.exists_tokens (fun _ _ => trivial) ls' [] [] nofun nofun
    hrows
  rfl

/-! ## Line ends -/

mutual

theorem AbnfElement.not_isCnl (e : AbnfElement) : ∀ t ∈ e.tokens, t.isCnl = false := by
  have hopen : ∀ b : Bracket, b.opening.isCnl = false := fun b => by cases b <;> rfl
  have hclose : ∀ b : Bracket, b.closing.isCnl = false := fun b => by cases b <;> rfl
  match e with
  | .rulename t =>
      rw [AbnfElement.tokens]
      exact List.forall_mem_singleton.mpr rfl
  | .literal l =>
      rw [AbnfElement.tokens]
      exact List.forall_mem_singleton.mpr (by cases l <;> rfl)
  | .bracket b a =>
      rw [AbnfElement.tokens]
      exact List.forall_mem_cons.mpr ⟨hopen b, List.forall_mem_append.mpr
        ⟨a.not_isCnl, List.forall_mem_singleton.mpr (hclose b)⟩⟩
  | .bracketCommand b t =>
      rw [AbnfElement.tokens]
      exact List.forall_mem_cons.mpr ⟨hopen b, List.forall_mem_cons.mpr
        ⟨rfl, List.forall_mem_singleton.mpr (hclose b)⟩⟩
  | .bracketWith b t a =>
      rw [AbnfElement.tokens]
      exact List.forall_mem_cons.mpr ⟨hopen b, List.forall_mem_cons.mpr
        ⟨rfl, List.forall_mem_append.mpr
          ⟨a.not_isCnl, List.forall_mem_singleton.mpr (hclose b)⟩⟩⟩

theorem Repetition.not_isCnl (r : Repetition) : ∀ t ∈ r.tokens, t.isCnl = false := by
  match r with
  | .element e =>
      rw [Repetition.tokens]
      exact e.not_isCnl
  | .repeated t e =>
      rw [Repetition.tokens]
      exact List.forall_mem_cons.mpr ⟨rfl, e.not_isCnl⟩

theorem Concatenation.not_isCnl (c : Concatenation) : ∀ t ∈ c.tokens, t.isCnl = false := by
  match c with
  | .repetition r =>
      rw [Concatenation.tokens]
      exact r.not_isCnl
  | .append c r =>
      rw [Concatenation.tokens]
      exact List.forall_mem_append.mpr ⟨c.not_isCnl, r.not_isCnl⟩

theorem Alternation.not_isCnl (a : Alternation) : ∀ t ∈ a.tokens, t.isCnl = false := by
  match a with
  | .concatenation c =>
      rw [Alternation.tokens]
      exact c.not_isCnl
  | .alternative a c =>
      rw [Alternation.tokens]
      exact List.forall_mem_append.mpr
        ⟨a.not_isCnl, List.forall_mem_cons.mpr ⟨rfl, c.not_isCnl⟩⟩

end

theorem Rule.not_isCnl (r : Rule) : ∀ t ∈ r.tokens, t.isCnl = false := by
  cases r with
  | defined t e =>
      exact List.forall_mem_cons.mpr ⟨rfl, List.forall_mem_cons.mpr ⟨rfl, e.not_isCnl⟩⟩
  | definedWith t c e =>
      exact List.forall_mem_cons.mpr ⟨rfl, List.forall_mem_cons.mpr
        ⟨rfl, List.forall_mem_cons.mpr ⟨rfl, e.not_isCnl⟩⟩⟩
  | incremental t e =>
      exact List.forall_mem_cons.mpr ⟨rfl, List.forall_mem_cons.mpr ⟨rfl, e.not_isCnl⟩⟩

/-- Behind a `cnl` there is a rule name or another `cnl`, if anything. -/
theorem Derives.after_cnl {ts ts' : List Token} {t u : Token} {rs : List Rule}
    (h : Derives (ts ++ t :: u :: ts') rs) (ht : t.isCnl = true) :
    u.rule = .rulename ∨ u.isCnl = true := by
  obtain ⟨ls, hne, heq, hrules⟩ := h.exists_lines
  clear h hne hrules
  have hnext : ∀ {ls : List Line}, u :: ts' = ls.flatMap Line.tokens →
      u.rule = .rulename ∨ u.isCnl = true := by
    intro ls heq
    cases ls with
    | nil => cases heq
    | cons l ls =>
        obtain ⟨v, vs, hv, hstarts⟩ := l.exists_tokens
        rw [List.flatMap_cons, hv] at heq
        rw [(List.cons.inj heq).1]
        exact hstarts
  induction ls generalizing ts with
  | nil => exact absurd heq (List.append_ne_nil_of_right_ne_nil _ nofun)
  | cons l ls ih =>
      have hfront : ∀ v ∈ (l.rule.map Rule.tokens).getD [], v.isCnl = false := by
        cases l.rule with
        | none => exact nofun
        | some r => exact r.not_isCnl
      rw [List.flatMap_cons, Line.tokens, List.append_assoc, List.append_eq_append_iff] at heq
      obtain ⟨ss, hss, htail⟩ | ⟨ss, hss, htail⟩ := heq
      · cases ss with
        | nil => exact hnext (List.cons.inj htail).2
        | cons s ss =>
            have hmem := hfront s (hss ▸ List.mem_append_right ts List.mem_cons_self)
            rw [← (List.cons.inj htail).1, ht] at hmem
            cases hmem
      · cases ss with
        | nil => exact hnext (List.cons.inj htail).2.symm
        | cons s ss => exact ih (List.cons.inj htail).2.symm

end Stress

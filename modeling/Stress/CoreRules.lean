import Stress.Parser
import Mathlib.Data.List.Chain

/-!
# Core rules

The names that `src/scanner.ll` knows as core rules are no tokens.  The scanner reads on
in the text of the rule and comes back at its end, so the parser sees the tokens of the
text among those of the rule body.

`Alternation.expand` is what this comes to for the productions.  Two of the texts are no
element: `"0" / "1"` of `BIT`, whose slash also parts what stands around the name, and
`*(WSP / CRLF WSP)` of `LWSP`, which has a count of its own.
`core_rules_expand_iff` says where a rule body with core rules is parsed as if their names
were those of other rules.
-/

namespace Stress

open RegularExpression

/-! ## The rules -/

/-- The core rules in the order of the scanner. -/
inductive CoreRule where
  | alpha
  | bit
  | char
  | cr
  | crlf
  | ctl
  | digit
  | dquote
  | hexdig
  | htab
  | lf
  | lwsp
  | octet
  | sp
  | vchar
  | wsp
deriving DecidableEq, Repr

namespace CoreRule

def all : List CoreRule :=
  [alpha, bit, char, cr, crlf, ctl, digit, dquote, hexdig, htab, lf, lwsp, octet, sp, vchar, wsp]

def name : CoreRule → Bytes
  | alpha => ascii "ALPHA"
  | bit => ascii "BIT"
  | char => ascii "CHAR"
  | cr => ascii "CR"
  | crlf => ascii "CRLF"
  | ctl => ascii "CTL"
  | digit => ascii "DIGIT"
  | dquote => ascii "DQUOTE"
  | hexdig => ascii "HEXDIG"
  | htab => ascii "HTAB"
  | lf => ascii "LF"
  | lwsp => ascii "LWSP"
  | octet => ascii "OCTET"
  | sp => ascii "SP"
  | vchar => ascii "VCHAR"
  | wsp => ascii "WSP"

/-- The text that the scanner reads in the place of the name. -/
def text (r : CoreRule) : Bytes := (coreRules.lookup r.name).getD []

/-- The core rule of a name. -/
def ofName (n : Bytes) : Option CoreRule := all.find? fun r => r.name == n

theorem coreRules_eq : coreRules = all.map fun r => (r.name, r.text) := by decide +kernel

theorem mem_all (r : CoreRule) : r ∈ all := by
  cases r <;> decide

theorem ofName_name (r : CoreRule) : ofName r.name = some r := by
  cases r <;> decide +kernel

theorem ofName_eq_some {n : Bytes} {r : CoreRule} : ofName n = some r ↔ r.name = n := by
  refine ⟨fun h => ?_, fun h => h ▸ ofName_name r⟩
  rw [ofName] at h
  have hfound := List.find?_some h
  exact eq_of_beq hfound

theorem name_mem_rulename (r : CoreRule) : r.name ∈ rulename.matches' := by
  have hall : all.all (fun r => r.name.head?.any isLetter && r.name.all isRuleChar) = true := by
    decide +kernel
  have hone := List.all_eq_true.mp hall r r.mem_all
  rw [Bool.and_eq_true, List.all_eq_true] at hone
  obtain ⟨hhead, hchars⟩ := hone
  cases hname : r.name with
  | nil =>
      rw [hname] at hhead
      cases hhead
  | cons c s =>
      rw [hname, List.head?_cons, Option.any_some] at hhead
      rw [hname, List.forall_mem_cons] at hchars
      exact mem_rulename.mpr ⟨c, s, hhead, hchars.2, rfl⟩

end CoreRule

/-! ## Their texts -/

theorem mem_repeatCount_star : ascii "*" ∈ repeatCount.matches' :=
  (rmatch_iff_matches' _ _).mp (by decide +kernel)

/-- An alternation of one element. -/
def single (e : AbnfElement) : Alternation := .concatenation (.repetition (.element e))

/-- An alternation of two elements. -/
def either (e f : AbnfElement) : Alternation := .alternative (single e) (.repetition (.element f))

def hexElement (s : String) (h : hexval.rmatch (ascii s) = true) : AbnfElement :=
  .literal (.hexval ⟨ascii s, (rmatch_iff_matches' _ _).mp h⟩)

def textElement (s : String) (h : (ascii s).all isText = true) : AbnfElement :=
  .literal (.charval (quoted (ascii s) (List.all_eq_true.mp h)))

namespace CoreRule

/-- The name of the rule as an element. -/
def reference (r : CoreRule) : AbnfElement := .rulename ⟨r.name, r.name_mem_rulename⟩

/-- The text of the rule as the body of a rule. -/
def body : CoreRule → Alternation
  | alpha =>
      single (.bracket .group (either (hexElement "%x41-5A" (by decide +kernel))
        (hexElement "%x61-7A" (by decide +kernel))))
  | bit => either (textElement "0" rfl) (textElement "1" rfl)
  | char => single (hexElement "%x01-7F" (by decide +kernel))
  | cr => single (hexElement "%x0D" (by decide +kernel))
  | crlf =>
      single (.bracket .group (.concatenation
        (.append (.repetition (.element cr.reference)) (.element lf.reference))))
  | ctl =>
      single (.bracket .group (either (hexElement "%x00-1F" (by decide +kernel))
        (hexElement "%x7F" (by decide +kernel))))
  | digit => single (hexElement "%x30-39" (by decide +kernel))
  | dquote => single (hexElement "%x22" (by decide +kernel))
  | hexdig =>
      single (.bracket .group (.alternative (single digit.reference)
        (.append (.append (.append (.append (.append (.repetition
          (.element (textElement "A" rfl))) (.element (textElement "B" rfl)))
          (.element (textElement "C" rfl))) (.element (textElement "D" rfl)))
          (.element (textElement "E" rfl))) (.element (textElement "F" rfl)))))
  | htab => single (hexElement "%x09" (by decide +kernel))
  | lf => single (hexElement "%x0A" (by decide +kernel))
  | lwsp =>
      .concatenation (.repetition (.repeated ⟨ascii "*", mem_repeatCount_star⟩ (.bracket .group
        (.alternative (single wsp.reference)
          (.append (.repetition (.element crlf.reference)) (.element wsp.reference))))))
  | octet => single (hexElement "%x00-FF" (by decide +kernel))
  | sp => single (hexElement "%x20" (by decide +kernel))
  | vchar => single (.bracket .group (single (hexElement "%x21-7E" (by decide +kernel))))
  | wsp => single (.bracket .group (either sp.reference htab.reference))

end CoreRule

/-! ## Texts in the place of names -/

/-- The items of the second concatenation behind those of the first. -/
def Concatenation.join (c : Concatenation) : Concatenation → Concatenation
  | .repetition r => .append c r
  | .append d r => .append (c.join d) r

/-- The items of a concatenation behind the last alternative. -/
def Alternation.follow : Alternation → Concatenation → Alternation
  | .concatenation c, d => .concatenation (c.join d)
  | .alternative a c, d => .alternative a (c.join d)

/-- The text of the second alternation behind that of the first. -/
def Alternation.extend (a : Alternation) : Alternation → Alternation
  | .concatenation d => a.follow d
  | .alternative b d => .alternative (a.extend b) d

/-- The same with a slash in between. -/
def Alternation.slashed (a : Alternation) : Alternation → Alternation
  | .concatenation d => .alternative a d
  | .alternative b d => .alternative (a.slashed b) d

/-- A count in front of an item, which must not have one. -/
def Repetition.counted (t : Lexeme repeatCount) : Repetition → Repetition
  | .element e => .repeated t e
  | .repeated u e => .repeated u e

def Concatenation.counted (t : Lexeme repeatCount) : Concatenation → Concatenation
  | .repetition r => .repetition (r.counted t)
  | .append c r => .append (c.counted t) r

/-- A count in front of a text. -/
def Alternation.counted (t : Lexeme repeatCount) : Alternation → Alternation
  | .concatenation c => .concatenation (c.counted t)
  | .alternative a c => .alternative (a.counted t) c

section Expand

variable (β : CoreRule → Alternation)

mutual

/-- The productions of a text in which the names of core rules are replaced by other
texts. -/
def AbnfElement.expand : AbnfElement → Alternation
  | .rulename t =>
      match CoreRule.ofName t.text with
      | some r => β r
      | none => single (.rulename t)
  | .literal l => single (.literal l)
  | .bracket b a => single (.bracket b a.expand)
  | .bracketCommand b t => single (.bracketCommand b t)
  | .bracketWith b t a => single (.bracketWith b t a.expand)

def Repetition.expand : Repetition → Alternation
  | .element e => e.expand
  | .repeated t e => e.expand.counted t

def Concatenation.expand : Concatenation → Alternation
  | .repetition r => r.expand
  | .append c r => c.expand.extend r.expand

def Alternation.expand : Alternation → Alternation
  | .concatenation c => c.expand
  | .alternative a c => a.expand.slashed c.expand

end

end Expand

/-- The body of a core rule with the core rules in it expanded, up to a depth. -/
def CoreRule.expansionAt : Nat → CoreRule → Alternation
  | 0, r => r.body
  | k + 1, r => r.body.expand (expansionAt k)

/-- What the parser sees in the place of the name. -/
def CoreRule.expansion (r : CoreRule) : Alternation := expansionAt 2 r

/-! ## The condition -/

def Repetition.inner : Repetition → AbnfElement
  | .element e => e
  | .repeated _ e => e

def Repetition.isCounted : Repetition → Bool
  | .element _ => false
  | .repeated _ _ => true

/-- The core rule whose name the element is. -/
def AbnfElement.coreRule : AbnfElement → Option CoreRule
  | .rulename t => CoreRule.ofName t.text
  | _ => none

/-- The items of all the alternatives. -/
def Alternation.items (a : Alternation) : List Repetition :=
  a.concatenations.flatMap Concatenation.items

mutual

/-- The alternations in the brackets. -/
def AbnfElement.inside : AbnfElement → List Alternation
  | .bracket _ a => a :: a.inside
  | .bracketWith _ _ a => a :: a.inside
  | .rulename _ => []
  | .literal _ => []
  | .bracketCommand _ _ => []

def Repetition.inside : Repetition → List Alternation
  | .element e => e.inside
  | .repeated _ e => e.inside

def Concatenation.inside : Concatenation → List Alternation
  | .repetition r => r.inside
  | .append c r => c.inside ++ r.inside

def Alternation.inside : Alternation → List Alternation
  | .concatenation c => c.inside
  | .alternative a c => a.inside ++ c.inside

end

/-- `BIT` is no item here, or all there is. -/
def Alternation.BitAlone (a : Alternation) : Prop :=
  (∃ e, a = single e) ∨ ∀ r ∈ a.items, r.inner.coreRule ≠ some .bit

/-- No item is `LWSP` behind a count. -/
def Alternation.LwspUncounted (a : Alternation) : Prop :=
  ∀ r ∈ a.items, r.isCounted = true → r.inner.coreRule ≠ some .lwsp

theorem Alternation.items_concatenation (c : Concatenation) :
    (concatenation c).items = c.items := by
  rw [items, concatenations, List.flatMap_singleton]

theorem Alternation.items_alternative (a : Alternation) (c : Concatenation) :
    (alternative a c).items = a.items ++ c.items := by
  rw [items, concatenations, List.flatMap_append, List.flatMap_singleton, items]

/-! ## The tokens of the text -/

/-- The tokens that the parser sees for a token of the rule body. -/
def Token.expand (t : Token) : List Token :=
  if t.rule = .rulename then
    match CoreRule.ofName t.text with
    | some r => r.expansion.tokens
    | none => [t]
  else [t]

section Tokens

theorem Concatenation.tokens_join (c d : Concatenation) :
    (c.join d).tokens = c.tokens ++ d.tokens := by
  cases d with
  | repetition r => rw [join, tokens, tokens]
  | append d r => rw [join, tokens, tokens, c.tokens_join d, List.append_assoc]

theorem Alternation.tokens_extend (a b : Alternation) :
    (a.extend b).tokens = a.tokens ++ b.tokens := by
  cases b with
  | concatenation d =>
      cases a with
      | concatenation c => rw [extend, follow, tokens, tokens, tokens, c.tokens_join]
      | alternative a c =>
          rw [extend, follow, tokens, tokens, tokens, c.tokens_join, List.append_assoc]
          rfl
  | alternative b d => rw [extend, tokens, tokens, a.tokens_extend b, List.append_assoc]

theorem Alternation.tokens_slashed (a b : Alternation) :
    (a.slashed b).tokens = a.tokens ++ slash :: b.tokens := by
  cases b with
  | concatenation d => rw [slashed, tokens, tokens]
  | alternative b d =>
      rw [slashed, tokens, tokens, a.tokens_slashed b, List.append_assoc]
      rfl

/-- The first item. -/
def Concatenation.first : Concatenation → Repetition
  | .repetition r => r
  | .append c _ => c.first

def Alternation.first : Alternation → Repetition
  | .concatenation c => c.first
  | .alternative a _ => a.first

theorem Concatenation.tokens_counted {t : Lexeme repeatCount} (c : Concatenation)
    (h : c.first.isCounted = false) : (c.counted t).tokens = ⟨.repeat, t.text⟩ :: c.tokens := by
  match c with
  | .repetition (.element e) => rfl
  | .append c r =>
      rw [counted, tokens, tokens, c.tokens_counted h]
      rfl

theorem Alternation.tokens_counted {t : Lexeme repeatCount} (a : Alternation)
    (h : a.first.isCounted = false) : (a.counted t).tokens = ⟨.repeat, t.text⟩ :: a.tokens := by
  match a with
  | .concatenation c => exact c.tokens_counted h
  | .alternative a c =>
      rw [counted, tokens, tokens, a.tokens_counted h]
      rfl

/-- The text of every core rule but `LWSP` begins without a count. -/
theorem AbnfElement.first_expand {e : AbnfElement} (h : e.coreRule ≠ some .lwsp) :
    (e.expand CoreRule.expansion).first.isCounted = false := by
  cases e with
  | rulename t =>
      rw [coreRule] at h
      rw [expand]
      cases hr : CoreRule.ofName t.text with
      | none => rfl
      | some r =>
          rw [hr] at h
          cases r with
          | lwsp => exact absurd rfl h
          | _ => rfl
  | _ => rfl

theorem Bracket.expand_opening (b : Bracket) : b.opening.expand = [b.opening] := by
  cases b <;> rfl

theorem Bracket.expand_closing (b : Bracket) : b.closing.expand = [b.closing] := by
  cases b <;> rfl

theorem Literal.expand_token (l : Literal) : l.token.expand = [l.token] := by
  cases l <;> rfl

mutual

theorem AbnfElement.tokens_expand (e : AbnfElement) (h : ∀ b ∈ e.inside, b.LwspUncounted) :
    (e.expand CoreRule.expansion).tokens = e.tokens.flatMap Token.expand := by
  match e with
  | .rulename t =>
      rw [AbnfElement.expand, AbnfElement.tokens, List.flatMap_singleton, Token.expand, if_pos rfl]
      cases CoreRule.ofName t.text <;> rfl
  | .literal l =>
      rw [AbnfElement.expand, AbnfElement.tokens, List.flatMap_singleton, l.expand_token]
      rfl
  | .bracketCommand b t =>
      rw [AbnfElement.expand, AbnfElement.tokens, List.flatMap_cons, List.flatMap_cons,
        List.flatMap_singleton, b.expand_opening, b.expand_closing]
      rfl
  | .bracket b a =>
      rw [AbnfElement.inside] at h
      rw [AbnfElement.expand, AbnfElement.tokens, List.flatMap_cons, List.flatMap_append,
        List.flatMap_singleton, b.expand_opening, b.expand_closing, ← a.tokens_expand h]
      rfl
  | .bracketWith b t a =>
      rw [AbnfElement.inside] at h
      rw [AbnfElement.expand, AbnfElement.tokens, List.flatMap_cons, List.flatMap_cons,
        List.flatMap_append, List.flatMap_singleton, b.expand_opening, b.expand_closing,
        ← a.tokens_expand h]
      rfl

theorem Repetition.tokens_expand (r : Repetition)
    (hcount : r.isCounted = true → r.inner.coreRule ≠ some .lwsp)
    (h : ∀ b ∈ r.inside, b.LwspUncounted) :
    (r.expand CoreRule.expansion).tokens = r.tokens.flatMap Token.expand := by
  match r with
  | .element e =>
      rw [Repetition.inside] at h
      rw [Repetition.expand, Repetition.tokens, e.tokens_expand h]
  | .repeated t e =>
      rw [Repetition.inside] at h
      have hfirst : (e.expand CoreRule.expansion).first.isCounted = false :=
        AbnfElement.first_expand (hcount rfl)
      rw [Repetition.expand, Repetition.tokens, Alternation.tokens_counted _ hfirst,
        e.tokens_expand h]
      rfl

theorem Concatenation.tokens_expand (c : Concatenation)
    (hcount : ∀ r ∈ c.items, r.isCounted = true → r.inner.coreRule ≠ some .lwsp)
    (h : ∀ b ∈ c.inside, b.LwspUncounted) :
    (c.expand CoreRule.expansion).tokens = c.tokens.flatMap Token.expand := by
  match c with
  | .repetition r =>
      rw [Concatenation.items, List.forall_mem_singleton] at hcount
      rw [Concatenation.inside] at h
      rw [Concatenation.expand, Concatenation.tokens, r.tokens_expand hcount h]
  | .append c r =>
      rw [Concatenation.items, List.forall_mem_append, List.forall_mem_singleton] at hcount
      rw [Concatenation.inside, List.forall_mem_append] at h
      rw [Concatenation.expand, Concatenation.tokens, Alternation.tokens_extend,
        c.tokens_expand hcount.1 h.1, r.tokens_expand hcount.2 h.2, List.flatMap_append]

theorem Alternation.tokens_expand (a : Alternation) (h : ∀ b ∈ a :: a.inside, b.LwspUncounted) :
    (a.expand CoreRule.expansion).tokens = a.tokens.flatMap Token.expand := by
  obtain ⟨hhere, hinside⟩ := List.forall_mem_cons.mp h
  exact a.tokens_expand_items hhere hinside

theorem Alternation.tokens_expand_items (a : Alternation) (hcount : a.LwspUncounted)
    (h : ∀ b ∈ a.inside, b.LwspUncounted) :
    (a.expand CoreRule.expansion).tokens = a.tokens.flatMap Token.expand := by
  match a with
  | .concatenation c =>
      rw [Alternation.LwspUncounted, Alternation.items_concatenation] at hcount
      rw [Alternation.inside] at h
      rw [Alternation.expand, Alternation.tokens, c.tokens_expand hcount h]
  | .alternative a c =>
      rw [Alternation.LwspUncounted, Alternation.items_alternative, List.forall_mem_append]
        at hcount
      rw [Alternation.inside, List.forall_mem_append] at h
      rw [Alternation.expand, Alternation.tokens, Alternation.tokens_slashed,
        a.tokens_expand_items hcount.1 h.1, c.tokens_expand hcount.2 h.2, List.flatMap_append,
        List.flatMap_cons]
      rfl

end

end Tokens

/-! ## Counts -/

/-- No count stands behind a count. -/
def Single (ts : List Token) : Prop :=
  ts.IsChain fun t u => t.rule = .repeat → u.rule ≠ .repeat

/-- Nor at the end. -/
def Closed (ts : List Token) : Prop := Single ts ∧ ∀ t ∈ ts.getLast?, t.rule ≠ .repeat

section Counts

variable {ts us : List Token} {t : Token}

theorem Closed.append (h : Closed ts) (h' : Closed us) : Closed (ts ++ us) := by
  refine ⟨h.1.append h'.1 fun x hx y _ hcount => absurd hcount (h.2 x hx), fun x hx => ?_⟩
  rw [List.getLast?_append, Option.mem_def, Option.or_eq_some_iff] at hx
  exact hx.elim (h'.2 x) fun hx => h.2 x hx.2

theorem closed_singleton (h : t.rule ≠ .repeat) : Closed [t] := by
  refine ⟨.singleton t, fun x hx => ?_⟩
  cases hx
  exact h

theorem Closed.cons (ht : t.rule ≠ .repeat) (h : Closed ts) : Closed (t :: ts) :=
  (closed_singleton ht).append h

theorem Bracket.closed {b : Bracket} (h : Closed ts) :
    Closed (b.opening :: (ts ++ [b.closing])) := by
  cases b with
  | group => exact .cons nofun (h.append (closed_singleton nofun))
  | option => exact .cons nofun (h.append (closed_singleton nofun))

mutual

theorem AbnfElement.closed (e : AbnfElement) : Closed e.tokens := by
  match e with
  | .rulename t => exact closed_singleton nofun
  | .literal l => exact closed_singleton (by cases l <;> exact nofun)
  | .bracket b a => exact Bracket.closed a.closed
  | .bracketCommand b t =>
      exact @Bracket.closed [⟨.command, t.text⟩] b (closed_singleton nofun)
  | .bracketWith b t a =>
      exact @Bracket.closed (⟨.command, t.text⟩ :: a.tokens) b (.cons nofun a.closed)

theorem Repetition.closed (r : Repetition) : Closed r.tokens := by
  match r with
  | .element e => exact e.closed
  | .repeated t e =>
      obtain ⟨u, us, hu, hstarts⟩ := e.exists_tokens
      have hclosed := e.closed
      rw [Repetition.tokens, hu]
      rw [hu] at hclosed
      refine ⟨.cons_cons (fun _ heq => ?_) hclosed.1, fun x hx => hclosed.2 x ?_⟩
      · rw [Token.startsElement, heq] at hstarts
        cases hstarts
      · rwa [List.getLast?_cons_cons] at hx

theorem Concatenation.closed (c : Concatenation) : Closed c.tokens := by
  match c with
  | .repetition r => exact r.closed
  | .append c r => exact c.closed.append r.closed

theorem Alternation.closed (a : Alternation) : Closed a.tokens := by
  match a with
  | .concatenation c => exact c.closed
  | .alternative a c => exact a.closed.append (.cons nofun c.closed)

end

/-- The text of `LWSP` begins with a count. -/
theorem AbnfElement.exists_count {e : AbnfElement} (h : e.coreRule = some .lwsp) :
    ∃ u us, e.tokens.flatMap Token.expand = u :: us ∧ u.rule = .repeat := by
  cases e with
  | rulename t =>
      rw [coreRule] at h
      rw [tokens, List.flatMap_singleton, Token.expand, if_pos rfl, h]
      exact ⟨_, _, rfl, rfl⟩
  | _ => cases h

mutual

/-- Where no count comes behind a count, `LWSP` has none. -/
theorem AbnfElement.uncounted (e : AbnfElement) (h : Single (e.tokens.flatMap Token.expand)) :
    ∀ b ∈ e.inside, b.LwspUncounted := by
  match e with
  | .rulename t => exact List.forall_mem_nil _
  | .literal l => exact List.forall_mem_nil _
  | .bracketCommand b t => exact List.forall_mem_nil _
  | .bracket b a =>
      rw [AbnfElement.tokens, List.flatMap_cons, List.flatMap_append] at h
      exact List.forall_mem_cons.mpr (a.uncounted h.right_of_append.left_of_append)
  | .bracketWith b t a =>
      rw [AbnfElement.tokens, List.flatMap_cons, List.flatMap_cons, List.flatMap_append] at h
      exact List.forall_mem_cons.mpr
        (a.uncounted h.right_of_append.right_of_append.left_of_append)

theorem Repetition.uncounted (r : Repetition) (h : Single (r.tokens.flatMap Token.expand)) :
    (r.isCounted = true → r.inner.coreRule ≠ some .lwsp) ∧ ∀ b ∈ r.inside, b.LwspUncounted := by
  match r with
  | .element e => exact ⟨nofun, e.uncounted h⟩
  | .repeated t e =>
      rw [Repetition.tokens, List.flatMap_cons] at h
      refine ⟨fun _ hcore => ?_, e.uncounted h.right_of_append⟩
      obtain ⟨u, us, hu, hrule⟩ := AbnfElement.exists_count hcore
      rw [Repetition.inner] at hu
      rw [hu] at h
      exact List.isChain_cons_cons.mp h |>.1 rfl hrule

theorem Concatenation.uncounted (c : Concatenation) (h : Single (c.tokens.flatMap Token.expand)) :
    (∀ r ∈ c.items, r.isCounted = true → r.inner.coreRule ≠ some .lwsp) ∧
      ∀ b ∈ c.inside, b.LwspUncounted := by
  match c with
  | .repetition r =>
      obtain ⟨hhere, hinside⟩ := r.uncounted h
      exact ⟨List.forall_mem_singleton.mpr hhere, hinside⟩
  | .append c r =>
      rw [Concatenation.tokens, List.flatMap_append] at h
      obtain ⟨hhere, hinside⟩ := r.uncounted h.right_of_append
      obtain ⟨hitems, hbefore⟩ := c.uncounted h.left_of_append
      rw [Concatenation.items, Concatenation.inside]
      exact ⟨List.forall_mem_append.mpr ⟨hitems, List.forall_mem_singleton.mpr hhere⟩,
        List.forall_mem_append.mpr ⟨hbefore, hinside⟩⟩

theorem Alternation.uncounted (a : Alternation) (h : Single (a.tokens.flatMap Token.expand)) :
    a.LwspUncounted ∧ ∀ b ∈ a.inside, b.LwspUncounted := by
  match a with
  | .concatenation c =>
      rw [Alternation.LwspUncounted, Alternation.items_concatenation]
      exact c.uncounted h
  | .alternative a c =>
      rw [Alternation.tokens, List.flatMap_append, List.flatMap_cons] at h
      obtain ⟨hitems, hbefore⟩ := a.uncounted h.left_of_append
      obtain ⟨hhere, hinside⟩ := c.uncounted h.right_of_append.right_of_append
      rw [Alternation.LwspUncounted, Alternation.items_alternative, Alternation.inside]
      exact ⟨List.forall_mem_append.mpr ⟨hitems, hhere⟩,
        List.forall_mem_append.mpr ⟨hbefore, hinside⟩⟩

end

/-- The parser accepts the text if and only if no `LWSP` in it has a count. -/
theorem Alternation.exists_expand_iff (a : Alternation) :
    (∃ a' : Alternation, a'.tokens = a.tokens.flatMap Token.expand) ↔
      ∀ b ∈ a :: a.inside, b.LwspUncounted := by
  constructor
  · rintro ⟨a', h⟩
    have hclosed := a'.closed
    rw [h] at hclosed
    exact List.forall_mem_cons.mpr (a.uncounted hclosed.1)
  · exact fun h => ⟨a.expand CoreRule.expansion, a.tokens_expand h⟩

end Counts

/-! ## The nodes of the text -/

/-- There are several alternatives. -/
def Alternation.isChoice : Alternation → Bool
  | .concatenation _ => false
  | .alternative _ _ => true

theorem Alternation.nodes_eq (a : Alternation) :
    a.nodes = if a.isChoice then [.node .orComposite (ascii "/") (a.items.flatMap Repetition.nodes)]
      else a.items.flatMap Repetition.nodes := by
  cases a with
  | concatenation c =>
      rw [items_concatenation, nodes, c.nodes_eq]
      rfl
  | alternative a c =>
      have hall : (alternative a c).allNodes =
          (alternative a c).items.flatMap Repetition.nodes := by
        rw [allNodes, items, List.flatMap_assoc, funext Concatenation.nodes_eq]
      rw [nodes_alternative, hall]
      rfl

theorem Concatenation.items_join (c d : Concatenation) :
    (c.join d).items = c.items ++ d.items := by
  match d with
  | .repetition r => rw [join, items, items]
  | .append d r => rw [join, items, items, c.items_join d, List.append_assoc]

theorem Alternation.items_extend (a b : Alternation) :
    (a.extend b).items = a.items ++ b.items := by
  match b with
  | .concatenation d =>
      rw [extend, items_concatenation]
      cases a with
      | concatenation c =>
          rw [follow, items_concatenation, items_concatenation, c.items_join]
      | alternative a c =>
          rw [follow, items_alternative, items_alternative, c.items_join, List.append_assoc]
  | .alternative b d =>
      rw [extend, items_alternative, items_alternative, a.items_extend b, List.append_assoc]

theorem Alternation.items_slashed (a b : Alternation) :
    (a.slashed b).items = a.items ++ b.items := by
  match b with
  | .concatenation d => rw [slashed, items_alternative, items_concatenation]
  | .alternative b d =>
      rw [slashed, items_alternative, items_alternative, a.items_slashed b, List.append_assoc]

theorem Alternation.isChoice_extend (a b : Alternation) :
    (a.extend b).isChoice = (a.isChoice || b.isChoice) := by
  cases b with
  | concatenation d => cases a <;> rfl
  | alternative b d => exact (Bool.or_true _).symm

theorem Alternation.isChoice_slashed (a b : Alternation) : (a.slashed b).isChoice = true := by
  cases b <;> rfl

theorem Alternation.isChoice_counted {t : Lexeme repeatCount} (a : Alternation) :
    (a.counted t).isChoice = a.isChoice := by
  cases a <;> rfl

section Nodes

variable {β : CoreRule → Alternation}

theorem Concatenation.items_expand (c : Concatenation) :
    (c.expand β).items = c.items.flatMap fun r => (r.expand β).items := by
  match c with
  | .repetition r => rw [expand, items, List.flatMap_singleton]
  | .append c r =>
      rw [expand, items, Alternation.items_extend, c.items_expand, List.flatMap_append,
        List.flatMap_singleton]

theorem Alternation.items_expand (a : Alternation) :
    (a.expand β).items = a.items.flatMap fun r => (r.expand β).items := by
  match a with
  | .concatenation c => rw [expand, items_concatenation, c.items_expand]
  | .alternative a c =>
      rw [expand, items_slashed, items_alternative, a.items_expand, c.items_expand,
        List.flatMap_append]

theorem Concatenation.isChoice_expand (c : Concatenation) :
    (c.expand β).isChoice = c.items.any fun r => (r.expand β).isChoice := by
  match c with
  | .repetition r => rw [expand, items, List.any_cons, List.any_nil, Bool.or_false]
  | .append c r =>
      rw [expand, items, Alternation.isChoice_extend, c.isChoice_expand, List.any_append,
        List.any_cons, List.any_nil, Bool.or_false]

theorem Alternation.isChoice_expand (a : Alternation) :
    (a.expand β).isChoice = (a.isChoice || a.items.any fun r => (r.expand β).isChoice) := by
  cases a with
  | concatenation c =>
      rw [expand, items_concatenation, c.isChoice_expand]
      rfl
  | alternative a c => rw [expand, isChoice_slashed, isChoice, Bool.true_or]

/-- Only `BIT` has a slash that is not in brackets. -/
theorem AbnfElement.isChoice_expand (e : AbnfElement) :
    (e.expand CoreRule.expansion).isChoice = (e.coreRule == some .bit) := by
  cases e with
  | rulename t =>
      rw [expand, coreRule]
      cases CoreRule.ofName t.text with
      | none => rfl
      | some r => cases r <;> rfl
  | _ => rfl

theorem Repetition.isChoice_expand (r : Repetition) :
    (r.expand CoreRule.expansion).isChoice = (r.inner.coreRule == some .bit) := by
  cases r with
  | element e => exact e.isChoice_expand
  | repeated t e => exact (Alternation.isChoice_counted _).trans e.isChoice_expand

end Nodes

/-! ## Trees with other nodes in the place of names -/

/-- The texts an alternation generates. -/
def Alternation.language (ρ : Bytes → Set Bytes) (a : Alternation) : Set Bytes :=
  concat (Tree.generatesAll ρ a.nodes)

/-- The core rules generate what the bodies of their rules do. -/
def MeansCore (ρ : Bytes → Set Bytes) : Prop := ∀ r : CoreRule, ρ r.name = r.body.language ρ

/-- One tree is the other with a node in the place of each name of a core rule that generates
what the rule does. -/
inductive Tree.Alike : Tree → Tree → Prop where
  | core (r : CoreRule) {t : Tree} (h : ∀ ρ, MeansCore ρ → t.generates ρ = ρ r.name) :
      Alike (.node .composite r.name []) t
  | leaf (kind : LeafKind) (name : Bytes) : Alike (.leaf kind name) (.leaf kind name)
  | node (kind : NodeKind) (name : Bytes) {ts us : List Tree} (h : List.Forall₂ Alike ts us) :
      Alike (.node kind name ts) (.node kind name us)

theorem Tree.Alike.refl (t : Tree) : t.Alike t := by
  induction t using Tree.induction with
  | h t ih =>
      cases t with
      | leaf kind name => exact .leaf kind name
      | node kind name ts => exact .node kind name (List.forall₂_same.mpr ih)

theorem Tree.generatesAll_congr {ρ : Bytes → Set Bytes} {ts us : List Tree}
    (h : List.Forall₂ (fun t u => t.generates ρ = u.generates ρ) ts us) :
    generatesAll ρ ts = generatesAll ρ us := by
  rw [generatesAll_eq, generatesAll_eq]
  exact List.forall₂_eq_eq_eq ▸ List.forall₂_map_left_iff.mpr (List.forall₂_map_right_iff.mpr h)

/-- Alike trees generate the same. -/
theorem Tree.Alike.generates {ρ : Bytes → Set Bytes} (hρ : MeansCore ρ) {t u : Tree}
    (h : t.Alike u) : u.generates ρ = t.generates ρ := by
  induction t using Tree.induction generalizing u with
  | h t ih =>
      cases h with
      | core r h => rw [h ρ hρ, Tree.generates]
      | leaf kind name => rfl
      | @node kind name ts us h =>
          have hall : generatesAll ρ ts = generatesAll ρ us := by
            refine generatesAll_congr ?_
            refine (List.forall₂_iff_get.mpr ⟨h.length_eq, fun i hi hi' => ?_⟩)
            exact (ih _ (List.get_mem ts ⟨i, hi⟩) (h.get hi hi')).symm
          cases kind with
          | composite =>
              cases h with
              | nil => rfl
              | cons ht hts =>
                  rw [Tree.generates, Tree.generates, hall]
          | orComposite => rw [Tree.generates, Tree.generates, hall]
          | repeatComposite => rw [Tree.generates, Tree.generates, hall]

theorem generatesAll_of_alike {ρ : Bytes → Set Bytes} (hρ : MeansCore ρ) {ts us : List Tree}
    (h : List.Forall₂ Tree.Alike ts us) :
    Tree.generatesAll ρ us = Tree.generatesAll ρ ts :=
  (Tree.generatesAll_congr (h.imp fun _ _ h => (h.generates hρ).symm)).symm

/-! ## The texts of the core rules -/

theorem alike_reference {r : CoreRule} {t u : Tree} (hbody : r.body.nodes = [t]) (h : t.Alike u) :
    List.Forall₂ Tree.Alike r.reference.nodes [u] := by
  refine .cons (.core r fun ρ hρ => ?_) .nil
  rw [hρ r, Alternation.language, hbody, Tree.generatesAll, Tree.generatesAll, concat_singleton]
  exact h.generates hρ

theorem alike_of_body {r : CoreRule} {t : Tree} (hbody : r.body.nodes = [t]) :
    List.Forall₂ Tree.Alike r.reference.nodes [t] := alike_reference hbody (.refl t)

theorem alike_crlf :
    List.Forall₂ Tree.Alike CoreRule.crlf.reference.nodes CoreRule.crlf.expansion.nodes := by
  refine alike_reference rfl (.node _ _ ?_)
  exact List.rel_append (alike_of_body (r := .cr) rfl) (alike_of_body (r := .lf) rfl)

theorem alike_wsp :
    List.Forall₂ Tree.Alike CoreRule.wsp.reference.nodes CoreRule.wsp.expansion.nodes := by
  refine alike_reference rfl (.node _ _ (.cons (.node _ _ ?_) .nil))
  exact List.rel_append (alike_of_body (r := .sp) rfl) (alike_of_body (r := .htab) rfl)

/-- The text of a core rule becomes one node that generates what the rule does. -/
theorem CoreRule.alike_expansion (r : CoreRule) :
    List.Forall₂ Tree.Alike r.reference.nodes r.expansion.nodes := by
  cases r with
  | crlf => exact alike_crlf
  | wsp => exact alike_wsp
  | hexdig =>
      refine alike_reference rfl (.node _ _ (.cons (.node _ _ ?_) .nil))
      exact List.rel_append (alike_of_body (r := .digit) rfl)
        (List.forall₂_same.mpr fun t _ => .refl t)
  | lwsp =>
      refine alike_reference rfl (.node _ _ (.cons (.node _ _ (.cons (.node _ _ ?_) .nil)) .nil))
      exact List.rel_append alike_wsp (List.rel_append alike_crlf alike_wsp)
  | _ => exact alike_of_body rfl

/-! ## Where the trees are alike -/

/-- The nodes that the parser makes of an element. -/
def AbnfElement.seen (e : AbnfElement) : List Tree :=
  (e.expand CoreRule.expansion).items.flatMap Repetition.nodes

def Repetition.seen (r : Repetition) : List Tree :=
  (r.expand CoreRule.expansion).items.flatMap Repetition.nodes

section Alike

variable {ts us ts' us' : List Tree} {t u : Tree}

theorem forall₂_append (h : ts.length = us.length) :
    List.Forall₂ Tree.Alike (ts ++ ts') (us ++ us') ↔
      List.Forall₂ Tree.Alike ts us ∧ List.Forall₂ Tree.Alike ts' us' := by
  refine ⟨fun hall => ⟨?_, ?_⟩, fun hall => List.rel_append hall.1 hall.2⟩
  · have htake := List.forall₂_take ts.length hall
    rwa [List.take_left, h, List.take_left] at htake
  · have hdrop := List.forall₂_drop ts.length hall
    rwa [List.drop_left, h, List.drop_left] at hdrop

theorem alike_refl (ts : List Tree) : List.Forall₂ Tree.Alike ts ts :=
  List.forall₂_same.mpr fun t _ => .refl t

/-- A node with sons is no name. -/
theorem alike_node_iff {kind kind' : NodeKind} {name name' : Bytes} (h : ts ≠ []) :
    (Tree.node kind name ts).Alike (.node kind' name' us) ↔
      kind = kind' ∧ name = name' ∧ List.Forall₂ Tree.Alike ts us := by
  constructor
  · intro halike
    cases halike with
    | core r _ => exact absurd rfl h
    | node _ _ hall => exact ⟨rfl, rfl, hall⟩
  · rintro ⟨rfl, rfl, hall⟩
    exact .node kind name hall

theorem length_flatMap_nodes (rs : List Repetition) :
    (rs.flatMap Repetition.nodes).length = rs.length := by
  induction rs with
  | nil => rfl
  | cons r rs ih =>
      obtain ⟨t, ht, -⟩ := r.nodes_eq
      rw [List.flatMap_cons, List.length_append, ht, ih, List.length_singleton, List.length_cons,
        Nat.add_comm]

theorem Concatenation.length_items_counted {t : Lexeme repeatCount} (c : Concatenation) :
    (c.counted t).items.length = c.items.length := by
  match c with
  | .repetition r => rfl
  | .append c r =>
      rw [counted, items, items, List.length_append, List.length_append, c.length_items_counted]

theorem Alternation.length_items_counted {t : Lexeme repeatCount} (a : Alternation) :
    (a.counted t).items.length = a.items.length := by
  match a with
  | .concatenation c =>
      rw [counted, items_concatenation, items_concatenation, c.length_items_counted]
  | .alternative a c =>
      rw [counted, items_alternative, items_alternative, List.length_append, List.length_append,
        a.length_items_counted]

theorem AbnfElement.length_items_expand (e : AbnfElement) :
    (e.expand CoreRule.expansion).items.length = if e.coreRule = some .bit then 2 else 1 := by
  cases e with
  | rulename t =>
      rw [expand, coreRule]
      cases CoreRule.ofName t.text with
      | none => rfl
      | some r => cases r <;> rfl
  | _ => rfl

/-- `BIT` becomes two nodes, any other item one. -/
theorem Repetition.length_seen (r : Repetition) :
    r.seen.length = if r.inner.coreRule = some .bit then 2 else 1 := by
  rw [seen, length_flatMap_nodes]
  cases r with
  | element e => exact e.length_items_expand
  | repeated t e => exact (Alternation.length_items_counted _).trans e.length_items_expand

theorem Repetition.length_nodes (r : Repetition) : r.nodes.length = 1 := by
  obtain ⟨t, ht, -⟩ := r.nodes_eq
  rw [ht, List.length_singleton]

theorem Bracket.nodes_eq (b : Bracket) (ts : List Tree) :
    addNonTerminalNode b.node ts none = [.node .composite b.node.name ts] := by
  have hne : NodeKind.composite ≠ .orComposite := nofun
  cases b with
  | group => exact congrArg (fun t => [t]) (Tree.foldl_link_of_ne hne _ ts)
  | option => exact congrArg (fun t => [t]) (Tree.foldl_link_of_ne hne _ ts)

/-- What is neither `BIT` nor `LWSP` becomes one element. -/
theorem AbnfElement.exists_single (e : AbnfElement) (hbit : e.coreRule ≠ some .bit)
    (hlwsp : e.coreRule ≠ some .lwsp) : ∃ e', e.expand CoreRule.expansion = single e' := by
  cases e with
  | rulename t =>
      rw [coreRule] at hbit hlwsp
      rw [expand]
      cases hr : CoreRule.ofName t.text with
      | none => exact ⟨_, rfl⟩
      | some r =>
          rw [hr] at hbit hlwsp
          cases r with
          | bit => exact absurd rfl hbit
          | lwsp => exact absurd rfl hlwsp
          | _ => exact ⟨_, rfl⟩
  | _ => exact ⟨_, rfl⟩

theorem AbnfElement.eq_reference {e : AbnfElement} {r : CoreRule} (h : e.coreRule = some r) :
    e = r.reference := by
  cases e with
  | rulename t =>
      exact congrArg AbnfElement.rulename (Lexeme.ext_text (CoreRule.ofName_eq_some.mp h).symm)
  | _ => cases h

theorem AbnfElement.nodes_ne_nil (e : AbnfElement) : e.nodes ≠ [] := by
  obtain ⟨t, ht, -⟩ := e.nodes_eq
  rw [ht]
  exact List.cons_ne_nil t []

theorem Repetition.nodes_repeated (t : Lexeme repeatCount) (e : AbnfElement) :
    (repeated t e).nodes = [.node .repeatComposite t.text e.nodes] := by
  have hne : NodeKind.repeatComposite ≠ .orComposite := nofun
  rw [nodes]
  exact congrArg (fun t => [t]) (Tree.foldl_link_of_ne hne t.text e.nodes)

theorem AbnfElement.alike_rulename (t : Lexeme Stress.rulename)
    (hbit : (AbnfElement.rulename t).coreRule ≠ some .bit) :
    List.Forall₂ Tree.Alike (AbnfElement.rulename t).nodes (AbnfElement.rulename t).seen := by
  have hchoice := (AbnfElement.rulename t).isChoice_expand
  rw [beq_false_of_ne hbit] at hchoice
  have hseen : (AbnfElement.rulename t).seen =
      ((AbnfElement.rulename t).expand CoreRule.expansion).nodes := by
    rw [Alternation.nodes_eq, hchoice]
    rfl
  rw [hseen, expand]
  cases hr : CoreRule.ofName t.text with
  | none => exact alike_refl _
  | some r =>
      rw [AbnfElement.eq_reference (e := .rulename t) hr]
      exact r.alike_expansion

theorem Alternation.items_nodes_ne_nil (a : Alternation) :
    a.items.flatMap Repetition.nodes ≠ [] := by
  have hpos : 0 < a.items.length := by
    cases a with
    | concatenation c =>
        rw [items_concatenation]
        exact c.length_items_pos
    | alternative a c =>
        have hc := c.length_items_pos
        rw [items_alternative, List.length_append]
        omega
  rw [← List.length_pos_iff, length_flatMap_nodes]
  exact hpos

/-- With `BIT` there are more nodes than items. -/
theorem length_items_lt_seen {rs : List Repetition}
    (h : ¬ ∀ r ∈ rs, r.inner.coreRule ≠ some .bit) :
    rs.length < (rs.flatMap Repetition.seen).length := by
  have hone : ∀ r : Repetition, 1 ≤ r.seen.length := by
    intro r
    rw [r.length_seen]
    split <;> omega
  have hle : ∀ rs : List Repetition, rs.length ≤ (rs.flatMap Repetition.seen).length := by
    intro rs
    induction rs with
    | nil => exact Nat.le_refl 0
    | cons r rs ih =>
        have hr := hone r
        rw [List.flatMap_cons, List.length_append, List.length_cons]
        omega
  induction rs with
  | nil => exact absurd (List.forall_mem_nil _) h
  | cons r rs ih =>
      rw [List.forall_mem_cons, Classical.not_and_iff_not_or_not, not_not] at h
      rw [List.flatMap_cons, List.length_append, List.length_cons]
      cases h with
      | inl hbit =>
          have hlen := r.length_seen
          have hrest := hle rs
          rw [if_pos hbit] at hlen
          omega
      | inr hrest =>
          have hlt := ih hrest
          have hr := hone r
          omega

theorem length_items_seen {rs : List Repetition}
    (h : ∀ r ∈ rs, r.inner.coreRule ≠ some .bit) :
    (rs.flatMap Repetition.nodes).length = (rs.flatMap Repetition.seen).length := by
  rw [List.length_flatMap, List.length_flatMap]
  refine congrArg List.sum (List.map_congr_left fun r hr => ?_)
  rw [r.length_nodes, r.length_seen, if_neg (h r hr)]

/-- An alternation, once its items are known. -/
theorem Alternation.alike_of_items {a : Alternation}
    (hitems : (∀ r ∈ a.items, r.inner.coreRule ≠ some .bit) →
      (List.Forall₂ Tree.Alike (a.items.flatMap Repetition.nodes)
        (a.items.flatMap Repetition.seen) ↔ ∀ b ∈ a.inside, b.BitAlone)) :
    List.Forall₂ Tree.Alike a.nodes (a.expand CoreRule.expansion).nodes ↔
      ∀ b ∈ a :: a.inside, b.BitAlone := by
  have hseen : (a.expand CoreRule.expansion).items.flatMap Repetition.nodes =
      a.items.flatMap Repetition.seen := by
    rw [items_expand, List.flatMap_assoc]
    rfl
  rw [nodes_eq, nodes_eq, hseen, isChoice_expand]
  simp only [Repetition.isChoice_expand]
  by_cases hbit : ∀ r ∈ a.items, r.inner.coreRule ≠ some .bit
  · have hnone : (a.items.any fun r => r.inner.coreRule == some .bit) = false := by
      rw [List.any_eq_false]
      exact fun r hr => by simpa using hbit r hr
    have halone : a.BitAlone := .inr hbit
    rw [hnone, Bool.or_false, List.forall_mem_cons, ← hitems hbit]
    cases a.isChoice with
    | false =>
        rw [if_neg Bool.false_ne_true, if_neg Bool.false_ne_true]
        exact (and_iff_right halone).symm
    | true =>
        rw [if_pos rfl, if_pos rfl, List.forall₂_cons, alike_node_iff a.items_nodes_ne_nil]
        simp [halone]
  · -- the slash of the text parts the alternation
    have hany : (a.items.any fun r => r.inner.coreRule == some .bit) = true := by
      rw [← Bool.not_eq_false, List.any_eq_false]
      exact fun hall => hbit fun r hr => by simpa using hall r hr
    rw [hany, Bool.or_true, if_pos rfl]
    cases a with
    | alternative a c =>
        refine iff_of_false (fun halike => ?_) fun halone => ?_
        · rw [isChoice, if_pos rfl, List.forall₂_cons, alike_node_iff (items_nodes_ne_nil _)]
            at halike
          have hlen := halike.1.2.2.length_eq
          have hlt := length_items_lt_seen hbit
          rw [length_flatMap_nodes] at hlen
          omega
        · obtain ⟨e, heq⟩ | hnone := halone _ List.mem_cons_self
          · cases heq
          · exact hbit hnone
    | concatenation c =>
        rw [isChoice, if_neg Bool.false_ne_true, items_concatenation]
        rw [items_concatenation] at hbit
        cases c with
        | append c r =>
            refine iff_of_false (fun halike => ?_) fun halone => ?_
            · have hlen := halike.length_eq
              have hc := c.length_items_pos
              rw [length_flatMap_nodes, Concatenation.items, List.length_append,
                List.length_singleton, List.length_singleton] at hlen
              omega
            · obtain ⟨e, heq⟩ | hnone := halone _ List.mem_cons_self
              · cases heq
              · rw [items_concatenation] at hnone
                exact hbit hnone
        | repetition r =>
            have hcore : r.inner.coreRule = some .bit := by
              by_contra hne
              exact hbit (List.forall_mem_singleton.mpr hne)
            cases r with
            | repeated t e =>
                refine iff_of_false (fun halike => ?_) fun halone => ?_
                · rw [Concatenation.items, List.flatMap_singleton, Repetition.nodes_repeated,
                    List.forall₂_cons, alike_node_iff e.nodes_ne_nil] at halike
                  cases halike.1.1
                · obtain ⟨e, heq⟩ | hnone := halone _ List.mem_cons_self
                  · cases heq
                  · rw [items_concatenation] at hnone
                    exact hbit hnone
            | element e =>
                have he : e = CoreRule.bit.reference := AbnfElement.eq_reference hcore
                rw [he]
                refine iff_of_true CoreRule.bit.alike_expansion ?_
                exact List.forall_mem_singleton.mpr (.inl ⟨_, rfl⟩)

mutual

theorem AbnfElement.alike_iff (e : AbnfElement) (hbit : e.coreRule ≠ some .bit)
    (h : ∀ b ∈ e.inside, b.LwspUncounted) :
    List.Forall₂ Tree.Alike e.nodes e.seen ↔ ∀ b ∈ e.inside, b.BitAlone := by
  match e with
  | .rulename t =>
      exact iff_of_true (AbnfElement.alike_rulename t hbit) (List.forall_mem_nil _)
  | .literal l => exact iff_of_true (alike_refl _) (List.forall_mem_nil _)
  | .bracketCommand b t => exact iff_of_true (alike_refl _) (List.forall_mem_nil _)
  | .bracket b a =>
      rw [AbnfElement.inside, List.forall_mem_cons] at h
      have hseen : (AbnfElement.bracket b a).seen =
          addNonTerminalNode b.node (a.expand CoreRule.expansion).nodes none := rfl
      rw [hseen, AbnfElement.nodes, b.nodes_eq, b.nodes_eq, List.forall₂_cons,
        alike_node_iff a.nodes_ne_nil, AbnfElement.inside,
        Alternation.alike_of_items fun hbit => a.alike_items hbit h.1 h.2]
      simp
  | .bracketWith b t a =>
      rw [AbnfElement.inside, List.forall_mem_cons] at h
      have hseen : (AbnfElement.bracketWith b t a).seen = addNonTerminalNode b.node
          (.leaf .commandComposite t.text :: (a.expand CoreRule.expansion).nodes) none := rfl
      rw [hseen, AbnfElement.nodes, b.nodes_eq, b.nodes_eq, List.forall₂_cons,
        alike_node_iff (List.cons_ne_nil _ _), AbnfElement.inside, List.forall₂_cons,
        Alternation.alike_of_items fun hbit => a.alike_items hbit h.1 h.2]
      simp [Tree.Alike.refl]

theorem Repetition.alike_iff (r : Repetition) (hbit : r.inner.coreRule ≠ some .bit)
    (hcount : r.isCounted = true → r.inner.coreRule ≠ some .lwsp)
    (h : ∀ b ∈ r.inside, b.LwspUncounted) :
    List.Forall₂ Tree.Alike r.nodes r.seen ↔ ∀ b ∈ r.inside, b.BitAlone := by
  match r with
  | .element e => exact e.alike_iff hbit h
  | .repeated t e =>
      have hlwsp : e.coreRule ≠ some .lwsp := hcount rfl
      obtain ⟨e', he'⟩ := e.exists_single hbit hlwsp
      have hitem : e.seen = e'.nodes := by
        rw [AbnfElement.seen, he']
        exact List.flatMap_singleton _ _
      have hseen : (Repetition.repeated t e).seen = (Repetition.repeated t e').nodes := by
        rw [Repetition.seen, Repetition.expand, he']
        exact List.flatMap_singleton _ _
      rw [hseen, Repetition.nodes_repeated, Repetition.nodes_repeated, List.forall₂_cons,
        alike_node_iff e.nodes_ne_nil, ← hitem, e.alike_iff hbit h, Repetition.inside]
      simp

theorem Concatenation.alike_items (c : Concatenation)
    (hbit : ∀ r ∈ c.items, r.inner.coreRule ≠ some .bit)
    (hcount : ∀ r ∈ c.items, r.isCounted = true → r.inner.coreRule ≠ some .lwsp)
    (h : ∀ b ∈ c.inside, b.LwspUncounted) :
    List.Forall₂ Tree.Alike (c.items.flatMap Repetition.nodes)
      (c.items.flatMap Repetition.seen) ↔ ∀ b ∈ c.inside, b.BitAlone := by
  match c with
  | .repetition r =>
      rw [Concatenation.items, List.forall_mem_singleton] at hbit hcount
      rw [Concatenation.items, List.flatMap_singleton, List.flatMap_singleton,
        Concatenation.inside]
      exact r.alike_iff hbit hcount h
  | .append c r =>
      rw [Concatenation.items, List.forall_mem_append, List.forall_mem_singleton] at hbit hcount
      rw [Concatenation.inside, List.forall_mem_append] at h
      rw [Concatenation.items, List.flatMap_append, List.flatMap_append, List.flatMap_singleton,
        List.flatMap_singleton, Concatenation.inside, List.forall_mem_append,
        forall₂_append (length_items_seen hbit.1), c.alike_items hbit.1 hcount.1 h.1,
        r.alike_iff hbit.2 hcount.2 h.2]

theorem Alternation.alike_items (a : Alternation)
    (hbit : ∀ r ∈ a.items, r.inner.coreRule ≠ some .bit) (hcount : a.LwspUncounted)
    (h : ∀ b ∈ a.inside, b.LwspUncounted) :
    List.Forall₂ Tree.Alike (a.items.flatMap Repetition.nodes)
      (a.items.flatMap Repetition.seen) ↔ ∀ b ∈ a.inside, b.BitAlone := by
  match a with
  | .concatenation c =>
      rw [Alternation.LwspUncounted, Alternation.items_concatenation] at hcount
      rw [Alternation.items_concatenation] at hbit ⊢
      exact c.alike_items hbit hcount h
  | .alternative a c =>
      rw [Alternation.LwspUncounted, Alternation.items_alternative, List.forall_mem_append]
        at hcount
      rw [Alternation.items_alternative, List.forall_mem_append] at hbit
      rw [Alternation.inside, List.forall_mem_append] at h
      rw [Alternation.items_alternative, List.flatMap_append, List.flatMap_append,
        Alternation.inside, List.forall_mem_append, forall₂_append (length_items_seen hbit.1),
        a.alike_items hbit.1 hcount.1 h.1, c.alike_items hbit.2 hcount.2 h.2]

end

end Alike

/-! ## Texts with core rules -/

/-- The tokens of a text where the names of core rules are names as others. -/
inductive Written : Bytes → List Token → Prop where
  | nil : Written [] []
  | blank {c : UInt8} {s : Bytes} {n : Nat} {us : List Token}
      (hm : munch (c :: s) = some (n, .blank)) (h : Written ((c :: s).drop n) us) :
      Written (c :: s) us
  | core {c : UInt8} {s : Bytes} {n : Nat} {us : List Token} (r : CoreRule)
      (hm : munch (c :: s) = some (n, .core r.name r.text)) (h : Written ((c :: s).drop n) us) :
      Written (c :: s) (⟨.rulename, r.name⟩ :: us)
  | token {c : UInt8} {s : Bytes} {n : Nat} {r : ScanRule} {us : List Token}
      (hm : munch (c :: s) = some (n, r)) (hr : r.emits = true)
      (h : Written ((c :: s).drop n) us) : Written (c :: s) (⟨r, (c :: s).take n⟩ :: us)

section Written

variable {s rest : Bytes} {us : List Token}

/-- What may follow a name or a number in the text of a core rule. -/
def isEnd (c : UInt8) : Bool := c == 32 || c == 41

/-- The name of a core rule is taken where no rule matches more. -/
theorem munch_core_of (r : CoreRule) (hpre : s.take r.name.length = r.name)
    (hle : ∀ q ∈ scanRules, ∀ m, longest q.pattern s = some m → m ≤ r.name.length) :
    munch s = some (r.name.length, .core r.name r.text) := by
  have hmem : (r.name, r.text) ∈ coreRules := by
    rw [CoreRule.coreRules_eq]
    exact List.mem_map_of_mem r.mem_all
  obtain ⟨pre, post, hsplit⟩ := List.append_of_mem hmem
  have hrules : scanRules = pre.map (fun p => .core p.1 p.2) ++ .core r.name r.text ::
      (post.map (fun p => .core p.1 p.2) ++ ScanRule.symbols) := by
    have hall : scanRules = coreRules.map (fun p => .core p.1 p.2) ++ ScanRule.symbols := rfl
    rw [hall, hsplit, List.map_append, List.map_cons, List.append_assoc]
    rfl
  have hnodup : (coreRules.map Prod.fst).Nodup := by decide +kernel
  rw [hsplit, List.map_append, List.map_cons] at hnodup
  have hlong : longest (word r.name) s = some r.name.length := by
    have hlen := congrArg List.length hpre
    rw [List.length_take] at hlen
    refine longest_eq (by omega) (mem_word.mpr hpre) fun m hm hword => ?_
    have htake := congrArg List.length (mem_word.mp hword)
    rw [List.length_take] at htake
    omega
  rw [hrules] at hle
  refine munch_eq _ _ hrules hlong (fun q hq m hm => ?_) fun q hq m hm => ?_
  · refine Nat.lt_of_le_of_ne (hle q (List.mem_append_left _ hq) m hm) ?_
    rintro rfl
    -- a rule in front of it with a match as long would have the same name
    obtain ⟨p, hp, rfl⟩ := List.mem_map.mp hq
    have hname : p.1 = r.name := (mem_word.mp (of_longest hm).2).symm.trans hpre
    have hdisjoint := (List.nodup_append.mp hnodup).2.2 p.1 (List.mem_map_of_mem hp) r.name
    exact hdisjoint List.mem_cons_self hname
  · exact hle q (List.mem_append_right _ (List.mem_cons_of_mem _ hq)) m hm

theorem le_of_munch {c : UInt8} {n : Nat} {r : ScanRule} (h : munch (c :: s) = some (n, r)) :
    ∀ q ∈ scanRules, ∀ m, longest q.pattern (c :: s) = some m → m ≤ n := by
  intro q hq m hm
  rw [munch] at h
  have hmem : (m, q) ∈ scanRules.filterMap fun r =>
      (longest r.pattern (c :: s)).map (·, r) :=
    List.mem_filterMap.mpr ⟨q, hq, Option.map_eq_some_iff.mpr ⟨m, hm, rfl⟩⟩
  exact List.le_of_mem_argmax hmem (Option.mem_def.mpr h)

/-- What is taken as a rule name is no core rule. -/
theorem ofName_of_munch {c : UInt8} {n : Nat} (h : munch (c :: s) = some (n, .rulename)) :
    CoreRule.ofName ((c :: s).take n) = none := by
  cases hr : CoreRule.ofName ((c :: s).take n) with
  | none => rfl
  | some r =>
      have hname := CoreRule.ofName_eq_some.mp hr
      have hlen : n = r.name.length := by
        have hn := (of_longest (of_munch h).2.1).1
        have htake := congrArg List.length hname
        rw [List.length_take] at htake
        omega
      have hcore := munch_core_of r (by rw [← hlen, hname]) (hlen ▸ le_of_munch h)
      rw [h] at hcore
      cases hcore

theorem Token.expand_emitted {c : UInt8} {n : Nat} {r : ScanRule}
    (h : munch (c :: s) = some (n, r)) :
    Token.expand ⟨r, (c :: s).take n⟩ = [⟨r, (c :: s).take n⟩] := by
  rw [Token.expand]
  split
  · next hr =>
      have hr : r = .rulename := hr
      subst hr
      rw [ofName_of_munch h]
  · rfl

/-- The scanner reads the tokens of the text in the place of the name. -/
def Reads (r : CoreRule) : Prop := ∀ (buffers : List Bytes) (ts : List Token),
  (∃ fuel, scan fuel buffers = some ts) →
    ∃ fuel, scan fuel (r.text :: buffers) = some (r.expansion.tokens ++ ts)

theorem Written.scan (h : Written s us)
    (hcore : ∀ r : CoreRule, ⟨.rulename, r.name⟩ ∈ us → Reads r) {buffers : List Bytes}
    {ts : List Token} (hts : ∃ fuel, scan fuel buffers = some ts) :
    ∃ fuel, Stress.scan fuel (s :: buffers) = some (us.flatMap Token.expand ++ ts) := by
  induction h with
  | nil =>
      obtain ⟨fuel, hts⟩ := hts
      exact ⟨fuel + 1, hts⟩
  | @blank c s n us hm h ih =>
      obtain ⟨fuel, hrest⟩ := ih hcore
      exact ⟨fuel + 1, by rw [Stress.scan, hm]; exact hrest⟩
  | @core c s n us r hm h ih =>
      obtain ⟨fuel, hrest⟩ := hcore r List.mem_cons_self _ _
        (ih fun q hq => hcore q (List.mem_cons_of_mem _ hq))
      have hexpand : Token.expand ⟨.rulename, r.name⟩ = r.expansion.tokens := by
        rw [Token.expand, if_pos rfl, CoreRule.ofName_name]
      rw [List.flatMap_cons, hexpand, List.append_assoc]
      exact ⟨fuel + 1, by rw [Stress.scan, hm]; exact hrest⟩
  | @token c s n r us hm hr h ih =>
      obtain ⟨fuel, hrest⟩ := ih fun q hq => hcore q (List.mem_cons_of_mem _ hq)
      rw [List.flatMap_cons, Token.expand_emitted hm]
      exact ⟨fuel + 1, by rw [scan_token hm hr, hrest]; rfl⟩

theorem Written.step {w : Bytes} {r : ScanRule} (hne : w ≠ [])
    (hm : munch (w ++ s) = some (w.length, r)) (hr : r.emits = true) (h : Written s us) :
    Written (w ++ s) (⟨r, w⟩ :: us) := by
  obtain ⟨c, w, rfl⟩ := List.exists_cons_of_ne_nil hne
  rw [List.cons_append] at hm ⊢
  have hrest : Written ((c :: (w ++ s)).drop (c :: w).length) us := by
    rw [← List.cons_append, List.drop_left]
    exact h
  have htoken := Written.token hm hr hrest
  rwa [← List.cons_append, List.take_left, List.cons_append] at htoken

theorem Written.space (hs : s.head?.any isBlank = false) (h : Written s us) :
    Written (32 :: s) us := by
  refine .blank (munch_blank fun c hc => ?_) h
  rw [Option.mem_def.mp hc] at hs
  exact hs

theorem Written.leftbracket (h : Written s us) :
    Written (40 :: s) (⟨.leftbracket, ascii "("⟩ :: us) :=
  .step (w := [40]) nofun
    (munch_alone (by decide) (by decide) Nat.zero_lt_one (longest_char rfl)) rfl h

theorem Written.rightbracket (h : Written s us) :
    Written (41 :: s) (⟨.rightbracket, ascii ")"⟩ :: us) :=
  .step (w := [41]) nofun
    (munch_alone (by decide) (by decide) Nat.zero_lt_one (longest_char rfl)) rfl h

theorem Written.slash (h : Written s us) : Written (47 :: s) (slash :: us) :=
  .step (w := [47]) nofun (munch_slash s) rfl h

/-- A star in front of a bracket. -/
theorem Written.star (h : Written (40 :: s) us) :
    Written (42 :: 40 :: s) (⟨.repeat, ascii "*"⟩ :: us) := by
  refine .step (w := [42]) nofun (munch_alone (by decide) (by decide) Nat.zero_lt_one ?_) rfl h
  exact @longest_plain _ [42] (40 :: s) (fun c => c == 40) mem_repeatCount_star
    (by decide +kernel) fun c hc => by cases hc; rfl

theorem Written.text {t : String} (ht : (ascii t).all isText = true) (h : Written s us) :
    Written (34 :: (ascii t ++ 34 :: s)) (⟨.charval, 34 :: (ascii t ++ [34])⟩ :: us) := by
  have hm := munch_charval s (List.all_eq_true.mp ht)
  have hstep := Written.step (w := 34 :: (ascii t ++ [34])) nofun hm rfl h
  rwa [List.cons_append, List.append_assoc] at hstep

theorem Written.hex {w : Bytes} (hw : hexval.rmatch w = true) (hs : s.head?.all isEnd = true)
    (h : Written s us) : Written (w ++ s) (⟨.hexval, w⟩ :: us) := by
  have hmem := (rmatch_iff_matches' hexval w).mp hw
  have hne : w ≠ [] := by
    rintro rfl
    have htwo := take_two_mem_bases (r := .hexval) nofun hmem
    cases htwo with
    | tail _ h => cases h with
      | tail _ h => cases h
  refine .step hne (@munch_of_otherBase s .hexval isEnd w (by decide) nofun (by decide +kernel)
    (by decide +kernel) (by decide +kernel) hmem fun c hc => ?_) rfl h
  rw [Option.mem_def.mp hc] at hs
  exact hs

theorem longest_le_of_allIn {P : RegularExpression UInt8} {w : Bytes} {m : Nat}
    (hP : P.allIn (fun c => !isEnd c) = true) (hs : s.head?.all isEnd = true)
    (hm : longest P (w ++ s) = some m) : m ≤ w.length := by
  obtain ⟨hle, hmem⟩ := of_longest hm
  by_contra hlt
  rw [List.length_append] at hle
  obtain ⟨c, t, rfl⟩ := List.exists_cons_of_ne_nil (l := s) (by
    rintro rfl
    rw [List.length_nil] at hle
    omega)
  have hc := forall_mem_of_allIn hP hmem c (mem_take_of_lt (Nat.lt_of_not_le hlt))
  rw [List.head?_cons, Option.all_some] at hs
  rw [hs] at hc
  cases hc

/-- The name of a core rule in front of a blank or a bracket. -/
theorem Written.name (r : CoreRule) (hs : s.head?.all isEnd = true) (h : Written s us) :
    Written (r.name ++ s) (⟨.rulename, r.name⟩ :: us) := by
  obtain ⟨c, t, hc, -, hname⟩ := mem_rulename.mp r.name_mem_rulename
  have hcons : r.name ++ s = c :: (t ++ s) := by rw [hname, List.cons_append]
  have hletters : coreRules.all (fun p => p.1.all fun c => !isEnd c) = true := by decide +kernel
  have hothers : ScanRule.symbols.all (fun q => q == .rulename || q == .any ||
      (bytesOf isLetter).all fun c => !q.begins c) = true := by decide +kernel
  rw [List.all_eq_true] at hletters hothers
  have hm : munch (r.name ++ s) = some (r.name.length, .core r.name r.text) := by
    refine munch_core_of r List.take_left fun q hq m hm => ?_
    obtain ⟨p, hp, rfl⟩ | hsymbol := mem_scanRules.mp hq
    · exact longest_le_of_allIn (allIn_word.trans (hletters p hp)) hs hm
    · have hq' := hothers q hsymbol
      rw [Bool.or_eq_true, Bool.or_eq_true, beq_iff_eq, beq_iff_eq] at hq'
      obtain (rfl | rfl) | hbegins := hq'
      · exact longest_le_of_allIn (by decide +kernel) hs hm
      · rw [longest_cls hm, hname]
        exact Nat.succ_pos _
      · have hfalse := List.all_eq_true.mp hbegins c (mem_bytesOf.mpr hc)
        rw [Bool.not_eq_true'] at hfalse
        rw [hcons] at hm
        rw [longest_eq_zero ((starts_pattern q c).trans hfalse) hm]
        exact Nat.zero_le _
  rw [hcons] at hm ⊢
  refine .core r hm ?_
  rw [← hcons, List.drop_left]
  exact h

/-- The text of a core rule is read as the body of its rule. -/
theorem CoreRule.written_text (r : CoreRule) : Written r.text r.body.tokens := by
  cases r with
  | alpha =>
      exact .leftbracket (.hex (w := ascii "%x41-5A") (by decide +kernel) rfl (.space rfl
        (.slash (.space rfl (.hex (w := ascii "%x61-7A") (by decide +kernel) rfl
          (.rightbracket .nil))))))
  | bit => exact .text (t := "0") rfl (.space rfl (.slash (.space rfl (.text (t := "1") rfl .nil))))
  | char => exact .hex (w := ascii "%x01-7F") (by decide +kernel) rfl .nil
  | cr => exact .hex (w := ascii "%x0D") (by decide +kernel) rfl .nil
  | crlf =>
      exact .leftbracket (.name .cr rfl (.space rfl (.name .lf rfl (.rightbracket .nil))))
  | ctl =>
      exact .leftbracket (.hex (w := ascii "%x00-1F") (by decide +kernel) rfl (.space rfl
        (.slash (.space rfl (.hex (w := ascii "%x7F") (by decide +kernel) rfl
          (.rightbracket .nil))))))
  | digit => exact .hex (w := ascii "%x30-39") (by decide +kernel) rfl .nil
  | dquote => exact .hex (w := ascii "%x22") (by decide +kernel) rfl .nil
  | hexdig =>
      exact .leftbracket (.name .digit rfl (.space rfl (.slash (.space rfl
        (.text (t := "A") rfl (.space rfl (.text (t := "B") rfl (.space rfl
          (.text (t := "C") rfl (.space rfl (.text (t := "D") rfl (.space rfl
            (.text (t := "E") rfl (.space rfl (.text (t := "F") rfl
              (.rightbracket .nil))))))))))))))))
  | htab => exact .hex (w := ascii "%x09") (by decide +kernel) rfl .nil
  | lf => exact .hex (w := ascii "%x0A") (by decide +kernel) rfl .nil
  | lwsp =>
      exact .star (.leftbracket (.name .wsp rfl (.space rfl (.slash (.space rfl
        (.name .crlf rfl (.space rfl (.name .wsp rfl (.rightbracket .nil)))))))))
  | octet => exact .hex (w := ascii "%x00-FF") (by decide +kernel) rfl .nil
  | sp => exact .hex (w := ascii "%x20") (by decide +kernel) rfl .nil
  | vchar =>
      exact .leftbracket (.hex (w := ascii "%x21-7E") (by decide +kernel) rfl
        (.rightbracket .nil))
  | wsp =>
      exact .leftbracket (.name .sp rfl (.space rfl (.slash (.space rfl
        (.name .htab rfl (.rightbracket .nil))))))

/-- The scanner reads the text of every core rule. -/
theorem CoreRule.reads (r : CoreRule) : Reads r := by
  have hdepth : all.all (fun r => all.all fun q =>
      !r.body.tokens.contains ⟨.rulename, q.name⟩ ||
        decide (coreDepth q.name < coreDepth r.name)) = true := by decide +kernel
  have htokens : ∀ r ∈ all, r.body.tokens.flatMap Token.expand = r.expansion.tokens := by
    decide +kernel
  induction hd : coreDepth r.name using Nat.strong_induction_on generalizing r with
  | _ d ih =>
      intro buffers ts hts
      rw [← htokens r r.mem_all]
      refine r.written_text.scan (fun q hq => ih _ ?_ q rfl) hts
      have hless := List.all_eq_true.mp (List.all_eq_true.mp hdepth r r.mem_all) q q.mem_all
      rw [List.contains_iff_mem.mpr hq] at hless
      rw [← hd]
      simpa using hless

/-- The tokens of a text with core rules. -/
theorem Written.scans (h : Written s us) : Scans s (us.flatMap Token.expand) := by
  have hall : ∃ fuel, Stress.scan fuel [s] = some (us.flatMap Token.expand ++ []) :=
    h.scan (fun r _ => r.reads) ⟨1, rfl⟩
  obtain ⟨fuel, hts⟩ := hall
  rw [List.append_nil] at hts
  exact scans_of_scan hts

end Written

/-! ## The result -/

/-- The tree of the text is that of the body as it is written, with a node in the place of
each core rule, and generates the same. -/
def ExpandsAsElements (s : Bytes) (a : Alternation) : Prop :=
  ∃ a' : Alternation, Scans s a'.tokens ∧ List.Forall₂ Tree.Alike a.nodes a'.nodes ∧
    ∀ ρ, MeansCore ρ → a'.language ρ = a.language ρ

theorem Alternation.tokens_injective {a b : Alternation} (h : a.tokens = b.tokens) : a = b := by
  have hnil : ∀ t ∈ ([] : List Token).head?, t.endsAlternation := by
    intro t ht
    cases ht
  exact (Alternation.distinct a.distinct_items b [] [] hnil hnil (congrArg (· ++ []) h)).1

/-- A rule body with core rules is parsed as if their names were names of other rules if and
only if `BIT` stands alone in its alternation and `LWSP` behind no count. -/
theorem core_rules_expand_iff {s : Bytes} {a : Alternation} (h : Written s a.tokens) :
    ExpandsAsElements s a ↔ ∀ b ∈ a :: a.inside, b.BitAlone ∧ b.LwspUncounted := by
  have halike : (∀ b ∈ a :: a.inside, b.LwspUncounted) →
      (List.Forall₂ Tree.Alike a.nodes (a.expand CoreRule.expansion).nodes ↔
        ∀ b ∈ a :: a.inside, b.BitAlone) := by
    intro huncounted
    obtain ⟨hhere, hinside⟩ := List.forall_mem_cons.mp huncounted
    exact Alternation.alike_of_items fun hbit => a.alike_items hbit hhere hinside
  constructor
  · rintro ⟨a', hscans, hnodes, -⟩
    have htokens := hscans.unique h.scans
    have huncounted := a.exists_expand_iff.mp ⟨a', htokens⟩
    have heq : a' = a.expand CoreRule.expansion :=
      Alternation.tokens_injective (htokens.trans (a.tokens_expand huncounted).symm)
    rw [heq] at hnodes
    exact fun b hb => ⟨(halike huncounted).mp hnodes b hb, huncounted b hb⟩
  · intro hall
    have huncounted := fun b hb => (hall b hb).2
    have hnodes := (halike huncounted).mpr fun b hb => (hall b hb).1
    refine ⟨a.expand CoreRule.expansion, ?_, hnodes, fun ρ hρ => ?_⟩
    · rw [a.tokens_expand huncounted]
      exact h.scans
    · rw [Alternation.language, Alternation.language, generatesAll_of_alike hρ hnodes]

/-- The texts of the core rules give them a meaning, whatever the other names generate. -/
def coreMeaning (ρ : Bytes → Set Bytes) (n : Bytes) : Set Bytes :=
  (CoreRule.ofName n).elim (ρ n) fun r => r.expansion.language ρ

theorem coreMeaning_name {ρ : Bytes → Set Bytes} (r : CoreRule) {t : Tree}
    (h : r.expansion.nodes = [t]) : coreMeaning ρ r.name = t.generates ρ := by
  have hlanguage : coreMeaning ρ r.name = r.expansion.language ρ := by
    rw [coreMeaning, CoreRule.ofName_name]
    rfl
  rw [hlanguage, Alternation.language, h, Tree.generatesAll, Tree.generatesAll, concat_singleton]

theorem meansCore_coreMeaning (ρ : Bytes → Set Bytes) : MeansCore (coreMeaning ρ) := by
  intro r
  cases r with
  | crlf =>
      have hcr := coreMeaning_name (ρ := ρ) .cr rfl
      have hlf := coreMeaning_name (ρ := ρ) .lf rfl
      exact (congrArg₂ (fun x y => concat [concat [x, y]]) hcr hlf).symm
  | hexdig =>
      have hdigit := coreMeaning_name (ρ := ρ) .digit rfl
      exact (congrArg (fun x : Set Bytes => concat [concat [{w | ∃ l ∈ x :: Tree.generatesAll ρ
        ([65, 66, 67, 68, 69, 70].map fun c => .leaf .stringLeaf
          (ascii "\\\"" ++ [c] ++ ascii "\\\"")), w ∈ l}]]) hdigit).symm
  | wsp =>
      have hsp := coreMeaning_name (ρ := ρ) .sp rfl
      have hhtab := coreMeaning_name (ρ := ρ) .htab rfl
      exact (congrArg₂ (fun x y : Set Bytes => concat [concat [{w | ∃ l ∈ [x, y], w ∈ l}]])
        hsp hhtab).symm
  | lwsp =>
      have hwsp := coreMeaning_name (ρ := ρ) .wsp rfl
      have hcrlf := coreMeaning_name (ρ := ρ) .crlf rfl
      exact (congrArg₂ (fun x y : Set Bytes => concat [concat (List.replicate
        (extractInt (ascii "*")).toNat (concat [concat [{w | ∃ l ∈ [x, y, x], w ∈ l}]]))])
        hwsp hcrlf).symm
  | _ => rfl

theorem mem_repeatCount_two : ascii "2" ∈ repeatCount.matches' :=
  (rmatch_iff_matches' _ _).mp (by decide +kernel)

/-- `2BIT`. -/
def twoBits : Alternation :=
  .concatenation (.repetition (.repeated ⟨ascii "2", mem_repeatCount_two⟩ CoreRule.bit.reference))

theorem written_two {s : Bytes} {us : List Token} (hs : s.head?.all isLetter = true)
    (h : Written s us) : Written (50 :: s) (⟨.repeat, ascii "2"⟩ :: us) := by
  have hlong : longest repeatCount (50 :: s) = some 1 := by
    refine @longest_plain _ [50] s isLetter mem_repeatCount_two (by decide +kernel) fun c hc => ?_
    rw [Option.mem_def.mp hc] at hs
    exact hs
  exact .step (w := [50]) nofun (munch_alone (r := .repeat) (by decide) (by decide) Nat.one_pos
    hlong) rfl h

theorem written_twoBits : Written (ascii "2BIT") twoBits.tokens :=
  written_two rfl (.name .bit rfl .nil)

theorem length_twoBits {ρ : Bytes → Set Bytes} {w : Bytes}
    (h : w ∈ twoBits.language (coreMeaning ρ)) : w.length = 2 := by
  have hbit : ∀ v ∈ coreMeaning ρ CoreRule.bit.name, v.length = 1 := by
    intro v hv
    rw [coreMeaning_name .bit rfl] at hv
    obtain ⟨l, hl, hv⟩ := hv
    cases hl with
    | head => rw [Set.mem_singleton_iff.mp hv]; rfl
    | tail _ hl =>
        cases hl with
        | head => rw [Set.mem_singleton_iff.mp hv]; rfl
        | tail _ hl => cases hl
  have hlanguage : twoBits.language (coreMeaning ρ) =
      concat [concat [concat [coreMeaning ρ CoreRule.bit.name],
        concat [coreMeaning ρ CoreRule.bit.name]]] := rfl
  rw [hlanguage, concat_singleton, concat_singleton] at h
  obtain ⟨ws, hws, rfl⟩ := h
  cases hws with
  | cons hv hrest =>
      cases hrest with
      | cons hu hrest =>
          cases hrest
          simp [hbit _ hv, hbit _ hu]

/-- `2BIT` is read as two zeros, or a one. -/
theorem two_bits_generate_one : ¬ ∀ (s : Bytes) (a : Alternation), Written s a.tokens →
    ExpandsAsElements s a := by
  intro hall
  obtain ⟨a', hscans, -, hlanguage⟩ := hall _ _ written_twoBits
  have htokens : a'.tokens = (twoBits.expand CoreRule.expansion).tokens := by
    rw [hscans.unique written_twoBits.scans]
    decide +kernel
  have hone : [49] ∈ a'.language (coreMeaning fun _ => ∅) := by
    rw [Alternation.tokens_injective htokens]
    exact ⟨[[49]], .cons ⟨_, List.mem_cons_of_mem _ List.mem_cons_self, rfl⟩ .nil, rfl⟩
  rw [hlanguage _ (meansCore_coreMeaning _)] at hone
  have hlen := length_twoBits hone
  cases hlen

/-- `2DIGIT LWSP`. -/
def twoDigits : Alternation :=
  .concatenation (.append (.repetition (.repeated ⟨ascii "2", mem_repeatCount_two⟩
    CoreRule.digit.reference)) (.element CoreRule.lwsp.reference))

/-- The text of `2DIGIT LWSP` is parsed as a count in front of a rule, and another rule. -/
theorem two_digits_expand : ExpandsAsElements (ascii "2DIGIT LWSP") twoDigits := by
  have hwritten : Written (ascii "2DIGIT LWSP") twoDigits.tokens :=
    written_two rfl (.name .digit rfl (.space rfl (.name .lwsp rfl .nil)))
  have hdigit : CoreRule.digit.reference.coreRule = some .digit := CoreRule.ofName_name .digit
  have hlwsp : CoreRule.lwsp.reference.coreRule = some .lwsp := CoreRule.ofName_name .lwsp
  refine (core_rules_expand_iff hwritten).mpr (List.forall_mem_singleton.mpr ⟨.inr ?_, ?_⟩)
  · refine List.forall_mem_cons.mpr ⟨fun h => ?_, List.forall_mem_singleton.mpr fun h => ?_⟩
    · cases hdigit.symm.trans h
    · cases hlwsp.symm.trans h
  · refine List.forall_mem_cons.mpr ⟨fun _ h => ?_, List.forall_mem_singleton.mpr nofun⟩
    cases hdigit.symm.trans h

end Stress

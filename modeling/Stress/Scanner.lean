import Stress.Library.Regex
import Stress.Composite
import Mathlib.Data.List.MinMax

/-!
# The scanner

The patterns and the actions of `src/scanner.ll`.

A character class of flex takes a comma and a double quote as they stand, so
`crlf` is one character and may be a comma, and `hexdig` has the comma too.  The
scanner takes the rule with the longest match, the first one of these in the
order of the file.

A core rule such as `DIGIT` switches to a buffer with its expansion, and the end
of that buffer switches back.  A character that begins no other token is reported
and skipped.
-/

namespace Stress

open RegularExpression

/-! ## Character classes -/

/-- The bytes of a class. -/
def bytesOf (p : UInt8 → Bool) : List UInt8 := ((List.range 256).map Nat.toUInt8).filter p

theorem mem_bytesOf {p : UInt8 → Bool} {c : UInt8} : c ∈ bytesOf p ↔ p c = true := by
  rw [bytesOf, List.mem_filter, List.mem_map]
  refine ⟨fun h => h.2, fun h => ⟨⟨c.toNat, List.mem_range.mpr c.toNat_lt, ?_⟩, h⟩⟩
  exact UInt8.ofNat_toNat

/-- A class as a pattern. -/
def cls (p : UInt8 → Bool) : RegularExpression UInt8 := oneOf (bytesOf p)

/-- A string in quotes. -/
def str (s : String) : RegularExpression UInt8 := word (ascii s)

def isBlank (c : UInt8) : Bool := c == 32 || c == 9

def isBit (c : UInt8) : Bool := c == 48 || c == 49

/-- `hexdig`, which has the comma. -/
def isHexdig (c : UInt8) : Bool := isHexDigit c || c == 44

/-- `crlf`, which is one character. -/
def isCrlf (c : UInt8) : Bool := c == 13 || c == 10 || c == 44

def isVchar (c : UInt8) : Bool := 33 ≤ c && c ≤ 126

def isWsp (c : UInt8) : Bool := c == 32 || c == 9 || c == 44 || c == 34

/-- What may stand between the quotes of a `charval`. -/
def isText (c : UInt8) : Bool := (32 ≤ c && c ≤ 33) || (35 ≤ c && c ≤ 126)

/-- What may stand inside a `command`. -/
def isCommandText (c : UInt8) : Bool := (32 ≤ c && c ≤ 61) || (63 ≤ c && c ≤ 126)

def isRuleChar (c : UInt8) : Bool := isLetter c || isDigit c || c == 45

/-! ## Patterns -/

/-- A number of one base: values in a row after the letter, joined by dots, or two
of them with a dash in between. -/
def numval (lower upper : String) (isDig : UInt8 → Bool) : RegularExpression UInt8 :=
  (str lower + str upper) *
    (many1 (cls isDig) *
      opt (many1 (str "." * many1 (cls isDig)) + str "-" * many1 (cls isDig)))

def binval : RegularExpression UInt8 := numval "%b" "%B" isBit

def decval : RegularExpression UInt8 := numval "%d" "%D" isDigit

def hexval : RegularExpression UInt8 := numval "%x" "%X" isHexdig

def charval : RegularExpression UInt8 := str "\"" * ((cls isText).star * str "\"")

def command : RegularExpression UInt8 := str "<" * ((cls isCommandText).star * str ">")

def comment : RegularExpression UInt8 :=
  str ";" * ((cls fun c => isWsp c || isVchar c).star * cls isCrlf)

/-- `{digit}{1,}|{digit}*"*"*{digit}*`, where `"*"*` is any number of stars. -/
def repeatCount : RegularExpression UInt8 :=
  many1 (cls isDigit) +
    (cls isDigit).star * ((str "*").star * (cls isDigit).star)

def rulename : RegularExpression UInt8 := cls isLetter * (cls isRuleChar).star

/-- The core rules with the text the scanner reads in their place. -/
def coreRules : List (Bytes × Bytes) :=
  [(ascii "ALPHA", ascii "(%x41-5A / %x61-7A)"),
   (ascii "BIT", ascii "\"0\" / \"1\""),
   (ascii "CHAR", ascii "%x01-7F"),
   (ascii "CR", ascii "%x0D"),
   (ascii "CRLF", ascii "(CR LF)"),
   (ascii "CTL", ascii "(%x00-1F / %x7F)"),
   (ascii "DIGIT", ascii "%x30-39"),
   (ascii "DQUOTE", ascii "%x22"),
   (ascii "HEXDIG", ascii "(DIGIT / \"A\" \"B\" \"C\" \"D\" \"E\" \"F\")"),
   (ascii "HTAB", ascii "%x09"),
   (ascii "LF", ascii "%x0A"),
   (ascii "LWSP", ascii "*(WSP / CRLF WSP)"),
   (ascii "OCTET", ascii "%x00-FF"),
   (ascii "SP", ascii "%x20"),
   (ascii "VCHAR", ascii "(%x21-7E)"),
   (ascii "WSP", ascii "(SP / HTAB)")]

/-! ## Rules -/

/-- The rules of the scanner. -/
inductive ScanRule where
  | core (name expansion : Bytes)
  | blank
  | crlf
  | equal
  | increqual
  | leftbracket
  | rightbracket
  | leftbracketsq
  | rightbracketsq
  | slash
  | comment
  | charval
  | command
  | binval
  | decval
  | hexval
  | repeat
  | rulename
  | any
deriving DecidableEq, Repr

def ScanRule.pattern : ScanRule → RegularExpression UInt8
  | .core name _ => word name
  | .blank => many1 (cls isBlank)
  | .crlf => cls isCrlf
  | .equal => str "="
  | .increqual => str "=/"
  | .leftbracket => str "("
  | .rightbracket => str ")"
  | .leftbracketsq => str "["
  | .rightbracketsq => str "]"
  | .slash => str "/"
  | .comment => Stress.comment
  | .charval => Stress.charval
  | .command => Stress.command
  | .binval => Stress.binval
  | .decval => Stress.decval
  | .hexval => Stress.hexval
  | .repeat => repeatCount
  | .rulename => Stress.rulename
  | .any => cls fun c => c != 10

/-- The rules in the order of the file. -/
def scanRules : List ScanRule :=
  coreRules.map (fun r => .core r.1 r.2) ++
    [.blank, .crlf, .equal, .increqual, .leftbracket, .rightbracket, .leftbracketsq,
     .rightbracketsq, .slash, .comment, .charval, .command, .binval, .decval, .hexval, .repeat,
     .rulename, .any]

/-- The length of the longest prefix that a pattern matches. -/
def longest (P : RegularExpression UInt8) (s : Bytes) : Option Nat :=
  (List.range (s.length + 1)).reverse.find? fun n => P.rmatch (s.take n)

/-- The match the scanner takes. -/
def munch (s : Bytes) : Option (Nat × ScanRule) :=
  (scanRules.filterMap fun r => (longest r.pattern s).map (·, r)).argmax Prod.fst

/-- A token with its text.  Those of the rule `any` are the invalid characters. -/
structure Token where
  rule : ScanRule
  text : Bytes
deriving DecidableEq, Repr

/-- The tokens of a stack of buffers, `none` where `fuel` matches are not enough
or nothing matches. -/
def scan : Nat → List Bytes → Option (List Token)
  | 0, _ => none
  | _ + 1, [] => some []
  | fuel + 1, [] :: buffers => scan fuel buffers
  | fuel + 1, (c :: s) :: buffers =>
      match munch (c :: s) with
      | none => none
      | some (n, r) =>
          let rest := (c :: s).drop n :: buffers
          match r with
          | .core _ expansion => scan fuel (expansion :: rest)
          | .blank => scan fuel rest
          | r => (scan fuel rest).map (⟨r, (c :: s).take n⟩ :: ·)

/-! ## Words of a pattern -/

/-- A text that a pattern matches. -/
structure Lexeme (P : RegularExpression UInt8) where
  text : Bytes
  mem : text ∈ P.matches'

theorem mem_str {s : String} {w : Bytes} : w ∈ (str s).matches' ↔ w = ascii s := mem_word

theorem mem_cls {p : UInt8 → Bool} {w : Bytes} :
    w ∈ (cls p).matches' ↔ ∃ c, p c = true ∧ w = [c] := by
  rw [cls, mem_oneOf]
  simp only [mem_bytesOf]

theorem mem_star_cls {p : UInt8 → Bool} {w : Bytes} :
    w ∈ (cls p).star.matches' ↔ ∀ c ∈ w, p c = true := by
  rw [cls, mem_star_oneOf]
  simp only [mem_bytesOf]

theorem mem_many1_cls {p : UInt8 → Bool} {w : Bytes} :
    w ∈ (many1 (cls p)).matches' ↔ w ≠ [] ∧ ∀ c ∈ w, p c = true := by
  rw [cls, mem_many1_oneOf]
  simp only [mem_bytesOf]

theorem allIn_cls {p q : UInt8 → Bool} (h : ∀ c, p c = true → q c = true) :
    (cls p).allIn q = true := by
  rw [cls, allIn_oneOf, List.all_eq_true]
  exact fun c hc => h c (mem_bytesOf.mp hc)

theorem allIn_str {s : String} {q : UInt8 → Bool} : (str s).allIn q = (ascii s).all q := allIn_word

theorem starts_cls {p : UInt8 → Bool} {c : UInt8} : (cls p).starts c = p c := by
  rw [Bool.eq_iff_iff, cls, starts_oneOf, mem_bytesOf]

theorem starts_str {s : String} {c : UInt8} : (str s).starts c = ((ascii s).head? == some c) :=
  starts_word

theorem mem_charval {w : Bytes} :
    w ∈ charval.matches' ↔
      ∃ text : Bytes, (∀ c ∈ text, isText c = true) ∧ w = 34 :: text ++ [34] := by
  have hquote : ascii "\"" = [34] := rfl
  rw [charval, mem_mul]
  simp only [mem_mul, mem_str, mem_star_cls, hquote]
  constructor
  · rintro ⟨_, rfl, _, ⟨text, htext, _, rfl, rfl⟩, rfl⟩
    exact ⟨text, htext, rfl⟩
  · rintro ⟨text, htext, rfl⟩
    exact ⟨[34], rfl, _, ⟨text, htext, _, rfl, rfl⟩, rfl⟩

/-- A charval with the given text. -/
def quoted (text : Bytes) (h : ∀ c ∈ text, isText c = true) : Lexeme charval :=
  ⟨34 :: text ++ [34], mem_charval.mpr ⟨text, h, rfl⟩⟩

theorem mem_rulename {w : Bytes} : w ∈ rulename.matches' ↔
    ∃ c s, isLetter c = true ∧ (∀ d ∈ s, isRuleChar d = true) ∧ w = c :: s := by
  rw [rulename, mem_mul]
  simp only [mem_cls, mem_star_cls]
  constructor
  · rintro ⟨_, ⟨c, hc, rfl⟩, s, hs, rfl⟩
    exact ⟨c, s, hc, hs, rfl⟩
  · rintro ⟨c, s, hc, hs, rfl⟩
    exact ⟨[c], ⟨c, hc, rfl⟩, s, hs, rfl⟩

/-- A count has digits and stars only. -/
theorem of_mem_repeatCount {w : Bytes} (h : w ∈ repeatCount.matches') :
    ∀ c ∈ w, isDigit c = true ∨ c = 42 := by
  have hover : repeatCount.allIn (fun c => isDigit c || c == 42) = true := by
    have hdigits : (cls isDigit).allIn (fun c => isDigit c || c == 42) = true :=
      allIn_cls fun c hc => by simp [hc]
    simp only [repeatCount, allIn_add, allIn_mul, allIn_many1, allIn_star, hdigits, allIn_str]
    rfl
  intro c hc
  have hone := forall_mem_of_allIn hover h c hc
  simpa using hone

/-! ## Longest matches -/

section Longest

variable {P : RegularExpression UInt8} {s : Bytes} {c : UInt8} {n m : Nat}

theorem of_longest (h : longest P s = some n) : n ≤ s.length ∧ s.take n ∈ P.matches' := by
  obtain ⟨hmatch, hmem⟩ := And.intro (List.find?_some h) (List.mem_of_find?_eq_some h)
  rw [List.mem_reverse, List.mem_range] at hmem
  exact ⟨by omega, (rmatch_iff_matches' P _).mp hmatch⟩

/-- The search from the longest prefix down finds the longest match. -/
theorem longest_eq (hle : n ≤ s.length) (hmem : s.take n ∈ P.matches')
    (hmax : ∀ m ≤ s.length, s.take m ∈ P.matches' → m ≤ n) : longest P s = some n := by
  have hfind : ∀ k, n < k → k ≤ s.length + 1 →
      (List.range k).reverse.find? (fun n => P.rmatch (s.take n)) = some n := by
    intro k
    induction k with
    | zero => exact nofun
    | succ k ih =>
        intro hn hk
        rw [List.range_succ, List.reverse_append, List.reverse_singleton, List.singleton_append,
          List.find?_cons]
        cases hmatch : P.rmatch (s.take k) with
        | true =>
            have hkn := hmax k (by omega) ((rmatch_iff_matches' P _).mp hmatch)
            rw [show k = n by omega]
        | false =>
            have hne : n ≠ k := by
              rintro rfl
              rw [(rmatch_iff_matches' P _).mpr hmem] at hmatch
              cases hmatch
            exact ih (by omega) (by omega)
  exact hfind _ (by omega) (Nat.le_refl _)

/-- A pattern that does not begin with the first character matches nothing but the
empty prefix. -/
theorem longest_eq_zero (hstarts : P.starts c = false) (h : longest P (c :: s) = some m) :
    m = 0 := by
  cases m with
  | zero => rfl
  | succ m =>
      have hmem := (of_longest h).2
      rw [List.take_succ_cons] at hmem
      rw [starts_of_mem hmem] at hstarts
      cases hstarts

theorem longest_cls {p : UInt8 → Bool} (h : longest (cls p) s = some m) : m = 1 := by
  obtain ⟨hle, hmem⟩ := of_longest h
  obtain ⟨d, _, hd⟩ := mem_cls.mp hmem
  have hlen := congrArg List.length hd
  rw [List.length_take, List.length_singleton] at hlen
  omega

/-- The first of the rules with the longest match is taken. -/
theorem munch_eq {r : ScanRule} (pre post : List ScanRule) (hrules : scanRules = pre ++ r :: post)
    (hr : longest r.pattern s = some n)
    (hpre : ∀ q ∈ pre, ∀ m, longest q.pattern s = some m → m < n)
    (hpost : ∀ q ∈ post, ∀ m, longest q.pattern s = some m → m ≤ n) :
    munch s = some (n, r) := by
  have hof : ∀ {rs : List ScanRule} {p : Nat × ScanRule},
      p ∈ rs.filterMap (fun r => (longest r.pattern s).map (·, r)) →
        p.2 ∈ rs ∧ longest p.2.pattern s = some p.1 := by
    intro rs p hp
    obtain ⟨q, hq, hmap⟩ := List.mem_filterMap.mp hp
    obtain ⟨m, hm, rfl⟩ := Option.map_eq_some_iff.mp hmap
    exact ⟨hq, hm⟩
  rw [munch, hrules, List.filterMap_append, List.filterMap_cons, hr, Option.map_some]
  generalize hfront : pre.filterMap _ = front
  have hlt : ∀ p ∈ front, p.1 < n := by
    intro p hp
    obtain ⟨hmem, hlong⟩ := hof (hfront ▸ hp)
    exact hpre p.2 hmem p.1 hlong
  clear hfront
  induction front with
  | nil =>
      rw [List.nil_append, List.argmax_cons]
      cases hback : List.argmax Prod.fst
          (post.filterMap fun r => (longest r.pattern s).map (·, r)) with
      | none => rfl
      | some p =>
          obtain ⟨hmem, hlong⟩ := hof (List.argmax_mem hback)
          exact if_neg (Nat.not_lt.mpr (hpost p.2 hmem p.1 hlong))
  | cons p front ih =>
      rw [List.forall_mem_cons] at hlt
      rw [List.cons_append, List.argmax_cons, ih hlt.2]
      exact if_pos hlt.1

end Longest

/-! ## Leaves -/

/-- The tokens that become a leaf. -/
inductive Literal where
  | charval (t : Lexeme charval)
  | binval (t : Lexeme binval)
  | decval (t : Lexeme decval)
  | hexval (t : Lexeme hexval)

/-- The class of the leaf. -/
def Literal.kind : Literal → LeafKind
  | .charval _ => .stringLeaf
  | .binval _ => .binLeaf
  | .decval _ => .decLeaf
  | .hexval _ => .hexLeaf

/-- The name of the leaf: the token, where each of the two quotes of a charval
gets a backslash. -/
def Literal.name : Literal → Bytes
  | .charval t => ascii "\\\"" ++ (t.text.drop 1).take (t.text.length - 2) ++ ascii "\\\""
  | .binval t => t.text
  | .decval t => t.text
  | .hexval t => t.text

def Literal.token : Literal → Token
  | .charval t => ⟨.charval, t.text⟩
  | .binval t => ⟨.binval, t.text⟩
  | .decval t => ⟨.decval, t.text⟩
  | .hexval t => ⟨.hexval, t.text⟩

/-! ## Steps of the scanner -/

section Steps

variable {fuel : Nat} {buffers : List Bytes}

theorem scan_blank {c : UInt8} {s : Bytes} (h : munch (c :: s) = some (1, .blank)) :
    scan (fuel + 1) ((c :: s) :: buffers) = scan fuel (s :: buffers) := by
  rw [scan, h]
  rfl

theorem scan_literal (fuel : Nat) (buffers : List Bytes) (l : Literal) {rest : Bytes}
    (hne : l.token.text ≠ [])
    (h : munch (l.token.text ++ rest) = some (l.token.text.length, l.token.rule)) :
    scan (fuel + 1) ((l.token.text ++ rest) :: buffers) =
      (scan fuel (rest :: buffers)).map (l.token :: ·) := by
  have hcons : ∀ s : Bytes, s ≠ [] → munch s = some (l.token.text.length, l.token.rule) →
      scan (fuel + 1) (s :: buffers) = (scan fuel (s.drop l.token.text.length :: buffers)).map
        (⟨l.token.rule, s.take l.token.text.length⟩ :: ·) := by
    rintro s hs hmunch
    obtain ⟨c, t, rfl⟩ := List.exists_cons_of_ne_nil hs
    rw [scan, hmunch]
    cases l <;> rfl
  rw [hcons _ (List.append_ne_nil_of_left_ne_nil hne rest) h, List.drop_left, List.take_left]

end Steps

end Stress

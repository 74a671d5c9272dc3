import Stress.Expansion
import Stress.Parser

/-!
# The verdict of the parser

`ABNFParser::parse` (`src/ABNFParser.cc`) with `ParserDriver::parse`
(`src/driver.cc`).

The verdict is a flag.  An error clears it, and the driver sets it after a parse that
returns 0, before it checks the symbols.  The scanner reports an invalid character and
goes on, so the parse may still return 0.

`rulelist` leaves the root as it is where no rule was read.  The driver expands the
root all the same.

`parse_verdict_iff` says that the verdict of a file without recursive rules goes wrong
in these two ways only.
-/

namespace Stress

open Relation

/-! ## The flag -/

/-- The types of the reports. -/
inductive ErrorType where
  | error
  | warning
deriving DecidableEq, Repr

/-- `ABNFParser`: the flag, and what has been reported. -/
structure ABNFParser where
  parsingResult : Bool := false
  reported : List (ErrorType × Bytes) := []

namespace ABNFParser

/-- `ABNFParser::error`. -/
def error (p : ABNFParser) (type : ErrorType) (m : Bytes) : ABNFParser where
  parsingResult := if type = .error then false else p.parsingResult
  reported := p.reported ++ [(type, m)]

def setParsingResult (p : ABNFParser) (result : Bool) : ABNFParser :=
  { p with parsingResult := result }

/-- One report after the other. -/
def errors (p : ABNFParser) (type : ErrorType) (ms : List Bytes) : ABNFParser :=
  ms.foldl (fun p m => p.error type m) p

/-- No error has been reported. -/
def NoErrors (p : ABNFParser) : Prop := ∀ x ∈ p.reported, x.1 ≠ .error

variable {p : ABNFParser} {type : ErrorType} {m : Bytes} {ms : List Bytes}

theorem reported_errors : (p.errors type ms).reported = p.reported ++ ms.map (type, ·) := by
  induction ms generalizing p with
  | nil => rw [errors, List.foldl_nil, List.map_nil, List.append_nil]
  | cons m ms ih =>
      have hcons : p.errors type (m :: ms) = (p.error type m).errors type ms := rfl
      rw [hcons, ih, error, List.append_assoc, List.map_cons, List.singleton_append]

theorem parsingResult_errors :
    (p.errors .error ms).parsingResult = (p.parsingResult && ms.isEmpty) := by
  induction ms generalizing p with
  | nil => rw [errors, List.foldl_nil, List.isEmpty_nil, Bool.and_true]
  | cons m ms ih =>
      have hcons : p.errors .error (m :: ms) = (p.error .error m).errors .error ms := rfl
      rw [hcons, ih, List.isEmpty_cons, Bool.and_false, error, if_pos rfl, Bool.false_and]

theorem noErrors_errors : (p.errors .error ms).NoErrors ↔ p.NoErrors ∧ ms = [] := by
  rw [NoErrors, reported_errors, List.forall_mem_append, NoErrors]
  refine and_congr_right fun _ => ?_
  cases ms with
  | nil => simp
  | cons m ms => simp

theorem noErrors_setParsingResult {result : Bool} :
    (p.setParsingResult result).NoErrors ↔ p.NoErrors := Iff.rfl

theorem not_noErrors_error : ¬ (p.error .error m).NoErrors := by
  intro h
  exact h (.error, m) (List.mem_append_right _ (List.mem_singleton_self _)) rfl

end ABNFParser

/-! ## The parse -/

def TOLERANCE : Nat := 0

/-- The type of a report about a symbol. -/
def symbolType : ErrorType := if TOLERANCE = 0 then .error else .warning

/-- `printUndefinedSymbols`. -/
def ABNFParser.printUndefinedSymbols (p : ABNFParser) (undS : List Bytes) : ABNFParser :=
  p.errors symbolType (undS.map (ascii "undefined symbol: " ++ ·))

/-- `printUnreferencedSymbols`. -/
def ABNFParser.printUnreferencedSymbols (p : ABNFParser) (unrS : List Bytes) : ABNFParser :=
  p.errors symbolType (unrS.map (ascii "unreferenced symbol: " ++ ·))

/-- A character that begins no token. -/
def Token.isInvalid (t : Token) : Bool := t.rule == .any

/-- `yylex`, called until these tokens have been read. -/
def ABNFParser.yylex (p : ABNFParser) (ts : List Token) : ABNFParser :=
  p.errors .error ((ts.filter Token.isInvalid).map fun t => ascii "invalid character " ++ t.text)

/-- The tokens that `yylex` returns. -/
def returned (ts : List Token) : List Token := ts.filter fun t => !t.isInvalid

/-- `parser.parse ()` on the tokens of a file.  Where it returns 0 it leaves the rules
with their map.  An action that aborts does so behind its rule, and a syntax error is
found where no rule list goes on as the file does. -/
inductive Parses (ts : List Token) : ABNFParser → Option (List Rule × Values) → Prop where
  | accept {rules : List Rule} {values : Values} (h : Derives (returned ts) rules)
      (hvalues : rulelist rules = .ok values) :
      Parses ts (ABNFParser.yylex {} ts) (some (rules, values))
  | abort {read rest : List Token} {rules : List Rule} {x : RuleError} (hts : ts = read ++ rest)
      (h : Derives (returned read) rules) (hx : rulelist rules = .error x) :
      Parses ts ((ABNFParser.yylex {} read).error .error (ascii x.message)) none
  | syntaxError {read rest : List Token} (m : Bytes) (hts : ts = read ++ rest)
      (h : ∀ more rules, (rest = [] → more = []) → ¬ Derives (returned read ++ more) rules) :
      Parses ts ((ABNFParser.yylex {} read).error .error m) none

/-- How a parse ends.  The rules are those of a rule list that was read to its end. -/
inductive ParseEnd where
  | nullRoot
  | done (p : ABNFParser) (rules : List Rule)

/-- `ABNFParser::parse`, with a file of the given text.  The root is the node of the
first rule. -/
inductive ABNFParser.Parse (s : Bytes) : ParseEnd → Prop where
  | failed {ts : List Token} {p : ABNFParser} (hscan : Scans s ts) (h : Parses ts p none) :
      Parse s (.done p [])
  | nullRoot {ts : List Token} {p : ABNFParser} {values : Values} (hscan : Scans s ts)
      (h : Parses ts p (some ([], values))) : Parse s .nullRoot
  | checked {ts : List Token} {p : ABNFParser} {r : Rule} {rules : List Rule} {values : Values}
      {fuel : Nat} {b : Built Tree} (hscan : Scans s ts)
      (h : Parses ts p (some (r :: rules, values))) (hexpand : expand values r.name fuel = some b) :
      Parse s (.done (((p.setParsingResult true).printUndefinedSymbols b.undefined)
        |>.printUnreferencedSymbols (checkUnreferencedSymbols values b.referenced)) (r :: rules))

/-- The parse returns, and its verdict is that no error was reported and a rule was
read. -/
def ParseEnd.Right : ParseEnd → Prop
  | .nullRoot => False
  | .done p rules => p.parsingResult = true ↔ p.NoErrors ∧ rules ≠ []

/-! ## The two ways to go wrong -/

/-- The rules of the file are not recursive. -/
def NotRecursive (s : Bytes) : Prop :=
  ∀ ts rules values, Scans s ts → Derives (returned ts) rules → rulelist rules = .ok values →
    ∀ n, ¬ TransGen (Refers values) n n

/-- The tokens are comments and line ends, and there is one. -/
def NoRule (ts : List Token) : Prop := returned ts ≠ [] ∧ ∀ t ∈ returned ts, t.isCnl = true

/-- A file with rules that has no error but for invalid characters: every `=/` line
comes after a definition, and the rules that the first one leads to are those that are
defined. -/
def Faultless (ts : List Token) : Prop :=
  ∃ r rules values, Derives (returned ts) (r :: rules) ∧ rulelist (r :: rules) = .ok values ∧
    ∀ n, ReflTransGen (Refers values) r.name n ↔ (values.lookup n).isSome = true

variable {s : Bytes} {ts : List Token} {p : ABNFParser}

theorem noErrors_yylex :
    (ABNFParser.yylex {} ts).NoErrors ↔ ∀ t ∈ ts, t.isInvalid = false := by
  have hstart : ({} : ABNFParser).NoErrors := nofun
  rw [ABNFParser.yylex, ABNFParser.noErrors_errors, and_iff_right hstart, List.map_eq_nil_iff,
    List.filter_eq_nil_iff]
  simp

/-- Only a file without rules derives an empty rule list. -/
theorem derives_nil_iff : Derives ts [] ↔ ts ≠ [] ∧ ∀ t ∈ ts, t.isCnl = true := by
  constructor
  · intro h
    obtain ⟨ls, hne, rfl, hrules⟩ := h.exists_lines
    have hline : ∀ l ∈ ls, l.tokens = [l.cnl] := by
      intro l hl
      have hnone := List.filterMap_eq_nil_iff.mp hrules.symm l hl
      rw [Line.tokens, hnone]
      rfl
    refine ⟨fun hnil => ?_, fun t ht => ?_⟩
    · obtain ⟨l, ls, rfl⟩ := List.exists_cons_of_ne_nil hne
      rw [List.flatMap_cons, hline l List.mem_cons_self] at hnil
      cases hnil
    · obtain ⟨l, hl, ht⟩ := List.mem_flatMap.mp ht
      rw [hline l hl, List.mem_singleton] at ht
      rw [ht]
      exact l.isCnl
  · rintro ⟨hne, hall⟩
    induction ts using List.reverseRecOn with
    | nil => exact absurd rfl hne
    | append_singleton ts t ih =>
        rw [List.forall_mem_append, List.forall_mem_singleton] at hall
        by_cases hts : ts = []
        · rw [hts]
          exact .cnl hall.2
        · exact .rulesCnl (ih hts hall.1) hall.2

/-- A parse that fails has reported an error. -/
theorem Parses.right_of_failed (h : Parses ts p none) : (ParseEnd.done p []).Right := by
  have hright : ∀ (q : ABNFParser) (m : Bytes), (ParseEnd.done (q.error .error m) []).Right := by
    intro q m
    refine ⟨fun hresult => ?_, fun hno => absurd hno.1 ABNFParser.not_noErrors_error⟩
    rw [ABNFParser.error, if_pos rfl] at hresult
    cases hresult
  cases h with
  | abort => exact hright _ _
  | syntaxError => exact hright _ _

/-- The verdict of a parse that returns 0 is what the check of the symbols finds. -/
theorem Parses.right_checked_iff {r : Rule} {rules : List Rule} {values : Values}
    {undS unrS : List Bytes} (h : Parses ts p (some (r :: rules, values))) :
    (ParseEnd.done (((p.setParsingResult true).printUndefinedSymbols undS)
      |>.printUnreferencedSymbols unrS) (r :: rules)).Right ↔
      (undS = [] → unrS = [] → ∀ t ∈ ts, t.isInvalid = false) := by
  cases h
  have htype : symbolType = .error := rfl
  rw [ParseEnd.Right, ABNFParser.printUnreferencedSymbols, ABNFParser.printUndefinedSymbols, htype,
    ABNFParser.parsingResult_errors, ABNFParser.parsingResult_errors, ABNFParser.noErrors_errors,
    ABNFParser.noErrors_errors, ABNFParser.noErrors_setParsingResult, noErrors_yylex]
  simp [ABNFParser.setParsingResult]
  tauto

/-- The check of the symbols finds nothing if and only if the rules that the first one
leads to are those that are defined. -/
theorem symbols_checked_iff {r : Rule} {rules : List Rule} {values : Values} {fuel : Nat}
    {b : Built Tree} (h : rulelist (r :: rules) = .ok values)
    (hrec : ∀ n, ¬ TransGen (Refers values) n n) (hexpand : expand values r.name fuel = some b) :
    (b.undefined = [] ∧ checkUnreferencedSymbols values b.referenced = []) ↔
      ∀ n, ReflTransGen (Refers values) r.name n ↔ (values.lookup n).isSome = true := by
  obtain ⟨_, b', ⟨enough, hb'⟩, _, hundefined, hunreferenced, _⟩ :=
    expansion_correct r rules h fun n _ => hrec n
  rw [expand_unique hexpand (hb' enough (Nat.le_refl _)), List.eq_nil_iff_forall_not_mem, List.eq_nil_iff_forall_not_mem, ← forall_and]
  refine forall_congr' fun n => ?_
  rw [hundefined, hunreferenced, ← Option.not_isSome_iff_eq_none]
  tauto

/-- Every file is parsed to some end. -/
theorem exists_parse (h : NotRecursive s) : ∃ e, ABNFParser.Parse s e := by
  obtain ⟨ts, hts⟩ := exists_scans s
  by_cases hderives : ∃ rules, Derives (returned ts) rules
  · obtain ⟨rules, hrules⟩ := hderives
    cases hvalues : rulelist rules with
    | error x => exact ⟨_, .failed hts (.abort (List.append_nil ts).symm hrules hvalues)⟩
    | ok values =>
        cases rules with
        | nil => exact ⟨_, .nullRoot hts (.accept hrules hvalues)⟩
        | cons r rules =>
            have hends := (expansion_ends_iff r rules).2 values hvalues
            obtain ⟨fuel, b, hb⟩ := hends.mpr fun n _ => h ts _ values hts hrules hvalues n
            exact ⟨_, .checked hts (.accept hrules hvalues) hb⟩
  · refine ⟨_, .failed hts (.syntaxError [] (List.append_nil ts).symm ?_)⟩
    intro more rules hmore hd
    rw [hmore rfl, List.append_nil] at hd
    exact hderives ⟨rules, hd⟩

/-- The parse of a file without recursive rules ends, without a null root, with the
right verdict, if and only if the file is not made of comments and line ends only and
has no invalid character as its only fault. -/
theorem parse_verdict_iff (s : Bytes) (h : NotRecursive s) :
    ((∃ e, ABNFParser.Parse s e) ∧ ∀ e, ABNFParser.Parse s e → e.Right) ↔
      ∀ ts, Scans s ts → ¬ NoRule ts ∧ (Faultless ts → ∀ t ∈ ts, t.isInvalid = false) := by
  rw [and_iff_right (exists_parse h)]
  constructor
  · refine fun hright ts hts => ⟨fun hnone => ?_, ?_⟩
    · exact hright _ (.nullRoot hts (.accept (derives_nil_iff.mpr hnone) rfl))
    · rintro ⟨r, rules, values, hrules, hvalues, hsymbols⟩
      have hrec := h ts _ values hts hrules hvalues
      have hends := (expansion_ends_iff r rules).2 values hvalues
      obtain ⟨fuel, b, hb⟩ := hends.mpr fun n _ => hrec n
      obtain ⟨hundefined, hunreferenced⟩ := (symbols_checked_iff hvalues hrec hb).mpr hsymbols
      exact (Parses.accept hrules hvalues).right_checked_iff.mp
        (hright _ (.checked hts (.accept hrules hvalues) hb)) hundefined hunreferenced
  · intro hcond e he
    cases he with
    | failed _ hp => exact hp.right_of_failed
    | @nullRoot ts _ _ hts hp =>
        cases hp with
        | accept hrules _ => exact (hcond ts hts).1 (derives_nil_iff.mp hrules)
    | @checked ts _ r rules values _ b hts hp hb =>
        refine hp.right_checked_iff.mpr fun hundefined hunreferenced => ?_
        cases hp with
        | accept hrules hvalues =>
            have hrec := h ts _ values hts hrules hvalues
            exact (hcond ts hts).2 ⟨r, rules, values, hrules, hvalues,
              (symbols_checked_iff hvalues hrec hb).mp ⟨hundefined, hunreferenced⟩⟩

/-! ## An invalid character -/

theorem mem_rulename_r0 : ascii "r-0" ∈ rulename.matches' :=
  mem_rulename.mpr ⟨114, ascii "-0", rfl, List.all_eq_true.mp rfl, rfl⟩

theorem isText_a : ∀ c ∈ ascii "a", isText c = true := List.all_eq_true.mp rfl

/-- `r-0 = "a"`. -/
def ruleOfText : Rule :=
  .defined ⟨ascii "r-0", mem_rulename_r0⟩ (.concatenation (quotedText (ascii "a") isText_a))

/-- The tokens of `?r-0 = "a"`. -/
def invalidTokens : List Token :=
  ⟨.any, ascii "?"⟩ :: (ruleOfText.tokens ++ [⟨.crlf, [10]⟩])

theorem scans_invalid : Scans (ascii "?r-0 = \"a\"\n") invalidTokens := by
  have hblank : ∀ {c : UInt8} {s : Bytes}, isBlank c = false →
      ∀ d ∈ (c :: s).head?, isBlank d = false := by
    rintro c s hc d hd
    cases hd
    exact hc
  have hline : Scans [10] [⟨.crlf, [10]⟩] :=
    Scans.token (w := [10]) nofun (munch_newline []) rfl .nil
  have htext : Scans (ascii "\"a\"\n") [⟨.charval, ascii "\"a\""⟩, ⟨.crlf, [10]⟩] :=
    Scans.token (w := ascii "\"a\"") nofun (munch_charval [10] isText_a) rfl hline
  have hequal : Scans (ascii "= \"a\"\n")
      [⟨.equal, ascii "="⟩, ⟨.charval, ascii "\"a\""⟩, ⟨.crlf, [10]⟩] := by
    refine Scans.token (w := ascii "=") nofun (munch_equal fun c hc => ?_) rfl
      (.blank (hblank rfl) htext)
    cases hc
    exact nofun
  have hname := Scans.token (w := ascii "r-0") (s := ascii " = \"a\"\n") nofun
    (munch_rulename mem_rulename_r0 (by decide) fun c hc => by cases hc; rfl) rfl
    (.blank (hblank rfl) hequal)
  exact Scans.token (w := ascii "?") nofun
    (munch_alone (by decide) (by decide) Nat.one_pos (longest_one rfl)) rfl hname

theorem derives_invalid : Derives (returned invalidTokens) [ruleOfText] :=
  .rule ruleOfText (t := ⟨.crlf, [10]⟩) rfl

/-- The map of `r-0 = "a"`. -/
def ruleOfTextValues : Values :=
  [(ascii "r-0", .node .composite (ascii "r-0") [.leaf .stringLeaf (ascii "\\\"a\\\"")])]

theorem not_refers_ruleOfText {n m : Bytes} : ¬ Refers ruleOfTextValues n m := by
  rintro ⟨node, hnode, hm⟩
  obtain ⟨l₁, l₂, hl, _⟩ := List.lookup_eq_some_iff.mp hnode
  have hmem : (n, node) ∈ ruleOfTextValues := hl ▸ List.mem_append_right l₁ List.mem_cons_self
  cases List.mem_singleton.mp hmem
  cases hm

/-- The invalid character of `?r-0 = "a"` is reported, and the verdict is true. -/
theorem parse_verdict_iff_invalid :
    ¬ ∀ e, ABNFParser.Parse (ascii "?r-0 = \"a\"\n") e → e.Right := by
  have hvalues : rulelist [ruleOfText] = .ok ruleOfTextValues := rfl
  have hrec : NotRecursive (ascii "?r-0 = \"a\"\n") := by
    intro ts rules values hts hrules hv n hcircle
    rw [hts.unique scans_invalid] at hrules
    rw [hrules.unique derives_invalid, hvalues] at hv
    cases hv
    obtain ⟨m, hstep, _⟩ := TransGen.head'_iff.mp hcircle
    exact not_refers_ruleOfText hstep
  have hfaultless : Faultless invalidTokens := by
    refine ⟨ruleOfText, [], _, derives_invalid, hvalues, fun n => ⟨fun hreach => ?_, fun hn => ?_⟩⟩
    · cases hreach.cases_head with
      | inl heq =>
          rw [← heq]
          rfl
      | inr hstep =>
          obtain ⟨m, hstep, _⟩ := hstep
          exact absurd hstep not_refers_ruleOfText
    · obtain ⟨node, hnode⟩ := Option.isSome_iff_exists.mp hn
      obtain ⟨l₁, l₂, hl, _⟩ := List.lookup_eq_some_iff.mp hnode
      have hmem : (n, node) ∈ ruleOfTextValues := hl ▸ List.mem_append_right l₁ List.mem_cons_self
      cases List.mem_singleton.mp hmem
      exact .refl
  intro hright
  have hcond := (parse_verdict_iff _ hrec).mp ⟨exists_parse hrec, hright⟩ _ scans_invalid
  cases hcond.2 hfaultless _ List.mem_cons_self

/-- A line end alone makes the driver expand a null root. -/
theorem line_end_null_root : ¬ ∀ s : Bytes, NotRecursive s →
    (∃ e, ABNFParser.Parse s e) ∧ ∀ e, ABNFParser.Parse s e → e.Right := by
  intro hall
  have hscan : Scans [10] [⟨.crlf, [10]⟩] :=
    Scans.token (w := [10]) nofun (munch_newline []) rfl .nil
  have hnil : Derives (returned [⟨.crlf, [10]⟩]) [] := .cnl rfl
  refine (hall [10] fun ts rules values hts hrules hv n hcircle => ?_).2 _
    (.nullRoot hscan (.accept hnil rfl))
  rw [hts.unique hscan] at hrules
  rw [hrules.unique hnil] at hv
  cases hv
  obtain ⟨m, ⟨node, hnode, _⟩, _⟩ := TransGen.head'_iff.mp hcircle
  cases hnode

end Stress

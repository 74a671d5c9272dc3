import Stress.Scanner

/-!
# Single tokens

Which token the scanner takes at the beginning of a text.  A token without a blank
and without a line end goes up to the next one of these.  A string, a command and a
comment go up to the character that closes them.

The other rules lose by their first characters, which are compared by evaluation.
The core rules and the rule names begin alike, and so do the numbers of the three
bases.
-/

namespace Stress

open RegularExpression

/-! ## Longest matches -/

section Longest

variable {P : RegularExpression UInt8} {w rest : Bytes}

/-- What ends a token. -/
def isStop (c : UInt8) : Bool := c == 32 || c == 10

/-- A match beyond `w` has the first character behind it. -/
theorem mem_take_of_lt {c : UInt8} {m : Nat} (hlt : w.length < m) :
    c ∈ (w ++ c :: rest).take m := by
  obtain ⟨k, hk⟩ : ∃ k, m - w.length = k + 1 := ⟨m - w.length - 1, by omega⟩
  rw [List.take_append, hk, List.take_succ_cons]
  exact List.mem_append_right _ List.mem_cons_self

/-- A pattern without some characters stops at the next one of them. -/
theorem longest_plain {q : UInt8 → Bool} (hw : w ∈ P.matches')
    (hP : P.allIn (fun c => !q c) = true) (hrest : ∀ c ∈ rest.head?, q c = true) :
    longest P (w ++ rest) = some w.length := by
  refine longest_eq ?_ ?_ fun m hle hm => ?_
  · rw [List.length_append]
    exact Nat.le_add_right _ _
  · rw [List.take_left]
    exact hw
  · by_contra hlt
    rw [List.length_append] at hle
    obtain ⟨c, rest, rfl⟩ := List.exists_cons_of_ne_nil (l := rest) (by
      rintro rfl
      rw [List.length_nil] at hle
      omega)
    have hc := forall_mem_of_allIn hP hm c (mem_take_of_lt (Nat.lt_of_not_le hlt))
    rw [hrest c rfl] at hc
    cases hc

/-- A pattern that ends with a character it does not have in between stops there. -/
theorem longest_closed {p : UInt8 → Bool} {a c : UInt8} {text : Bytes}
    (hP : ∀ u ∈ P.matches', ∃ v d, (∀ x ∈ v, p x = true) ∧ u = a :: v ++ [d])
    (hc : p c = false) (hw : a :: text ++ [c] ∈ P.matches') :
    longest P (a :: text ++ c :: rest) = some (text.length + 2) := by
  have htake : (a :: text ++ c :: rest).take (text.length + 2) = a :: text ++ [c] := by
    rw [List.cons_append, List.take_succ_cons, List.take_append,
      List.take_of_length_le (Nat.le_succ _), Nat.add_sub_cancel_left, List.take_succ_cons,
      List.take_zero, List.cons_append]
  refine longest_eq ?_ (htake ▸ hw) fun m hle hm => ?_
  · rw [List.length_append, List.length_cons, List.length_cons]
    omega
  · by_contra hlt
    obtain ⟨v, d, hv, heq⟩ := hP _ hm
    have hlen := congrArg List.length heq
    rw [List.length_take, Nat.min_eq_left hle, List.length_append, List.length_cons,
      List.length_singleton] at hlen
    -- The closing character would be inside of the match.
    have hfront := congrArg (fun w => (w.take (v.length + 1)).drop 1) heq
    simp only [List.cons_append, List.take_take, List.take_succ_cons, List.take_left,
      Nat.min_eq_left (show v.length + 1 ≤ m by omega), List.drop_succ_cons,
      List.drop_zero] at hfront
    have hmem : c ∈ v := hfront ▸ mem_take_of_lt (by omega)
    rw [hv c hmem] at hc
    cases hc

end Longest

/-! ## First characters -/

/-- The characters a rule begins with. -/
def ScanRule.begins : ScanRule → UInt8 → Bool
  | .core name _, c => name.head? == some c
  | .blank, c => isBlank c
  | .crlf, c => isCrlf c
  | .equal, c => c == 61
  | .increqual, c => c == 61
  | .leftbracket, c => c == 40
  | .rightbracket, c => c == 41
  | .leftbracketsq, c => c == 91
  | .rightbracketsq, c => c == 93
  | .slash, c => c == 47
  | .comment, c => c == 59
  | .charval, c => c == 34
  | .command, c => c == 60
  | .binval, c => c == 37
  | .decval, c => c == 37
  | .hexval, c => c == 37
  | .repeat, c => isDigit c || c == 42
  | .rulename, c => isLetter c
  | .any, c => c != 10

theorem starts_pattern (r : ScanRule) (c : UInt8) : r.pattern.starts c = r.begins c := by
  have hstr : ∀ (s : String) (d : UInt8), (ascii s).head? = some d →
      (str s).starts c = (c == d) := by
    intro s d hs
    rw [starts_str, hs, Option.some_beq_some, Bool.eq_iff_iff, beq_iff_eq, beq_iff_eq, eq_comm]
  have hopen : ∀ (s : String) (d : UInt8) (P : RegularExpression UInt8), ascii s = [d] →
      (str s * P).starts c = (c == d) := by
    intro s d P hs
    rw [starts_mul, hstr s d (by rw [hs]; rfl), str, hs, matchEpsilon_word, Bool.false_and,
      Bool.or_false]
  have hnumval : ∀ (lower upper : String) (d e : UInt8) (isDig : UInt8 → Bool),
      ascii lower = [37, d] → ascii upper = [37, e] →
      (numval lower upper isDig).starts c = (c == 37) := by
    intro lower upper d e isDig hlower hupper
    rw [numval, starts_mul, starts_add, hstr lower 37 (by rw [hlower]; rfl),
      hstr upper 37 (by rw [hupper]; rfl), matchEpsilon_add, str, str, hlower, hupper,
      matchEpsilon_word, matchEpsilon_word, Bool.or_self, Bool.or_self, Bool.false_and,
      Bool.or_false]
  cases r with
  | core name expansion => exact starts_word
  | blank => exact starts_many1.trans starts_cls
  | crlf => exact starts_cls
  | equal => exact hstr "=" 61 rfl
  | increqual => exact hstr "=/" 61 rfl
  | leftbracket => exact hstr "(" 40 rfl
  | rightbracket => exact hstr ")" 41 rfl
  | leftbracketsq => exact hstr "[" 91 rfl
  | rightbracketsq => exact hstr "]" 93 rfl
  | slash => exact hstr "/" 47 rfl
  | comment => exact hopen ";" 59 _ rfl
  | charval => exact hopen "\"" 34 _ rfl
  | command => exact hopen "<" 60 _ rfl
  | binval => exact hnumval "%b" "%B" 98 66 isBit rfl rfl
  | decval => exact hnumval "%d" "%D" 100 68 isDigit rfl rfl
  | hexval => exact hnumval "%x" "%X" 120 88 isHexdig rfl rfl
  | «repeat» =>
      rw [ScanRule.pattern, repeatCount, starts_add, starts_many1, starts_mul, starts_star,
        starts_mul, starts_star, starts_star, starts_cls, hstr "*" 42 rfl, ScanRule.begins]
      cases isDigit c <;> cases c == 42 <;> rfl
  | rulename =>
      have hname : (cls isLetter).matchEpsilon = false := matchEpsilon_oneOf
      rw [ScanRule.pattern, rulename, starts_mul, starts_cls, hname, Bool.false_and,
        Bool.or_false]
      rfl
  | any => exact starts_cls

/-! ## The rule that is taken -/

/-- The rules behind the core rules. -/
def ScanRule.symbols : List ScanRule :=
  [.blank, .crlf, .equal, .increqual, .leftbracket, .rightbracket, .leftbracketsq,
   .rightbracketsq, .slash, .comment, .charval, .command, .binval, .decval, .hexval, .repeat,
   .rulename, .any]

/-- The rules before and behind one of these. -/
def ScanRule.before (r : ScanRule) : List ScanRule := symbols.takeWhile (· != r)

def ScanRule.behind (r : ScanRule) : List ScanRule := (symbols.dropWhile (· != r)).tail

theorem ScanRule.symbols_eq {r : ScanRule} (hr : r ∈ symbols) :
    symbols = r.before ++ r :: r.behind := by
  have hdrop : symbols.dropWhile (· != r) ≠ [] := by
    rw [Ne, List.dropWhile_eq_nil_iff, not_forall₂]
    exact ⟨r, hr, by rw [bne_self_eq_false]; exact Bool.false_ne_true⟩
  have hhead : (symbols.dropWhile (· != r)).head hdrop = r := by
    simpa using List.head_dropWhile_not (· != r) hdrop
  calc symbols = r.before ++ symbols.dropWhile (· != r) := List.takeWhile_append_dropWhile.symm
    _ = r.before ++ (symbols.dropWhile (· != r)).head hdrop :: r.behind := by
        rw [behind, List.cons_head_tail]
    _ = r.before ++ r :: r.behind := by rw [hhead]

theorem mem_scanRules {r : ScanRule} :
    r ∈ scanRules ↔ (∃ p ∈ coreRules, .core p.1 p.2 = r) ∨ r ∈ ScanRule.symbols := by
  rw [← List.mem_map, ← List.mem_append]
  rfl

/-- A core rule begins with a letter. -/
theorem core_begins {p : Bytes × Bytes} (hp : p ∈ coreRules) {c : UInt8}
    (hc : isLetter c = false) : (ScanRule.core p.1 p.2).begins c = false := by
  have hall : coreRules.all (fun p => p.1.head?.all isLetter) = true := by decide +kernel
  have hone := List.all_eq_true.mp hall p hp
  by_contra hbegins
  rw [Bool.not_eq_false, ScanRule.begins, beq_iff_eq] at hbegins
  rw [hbegins, Option.all_some, hc] at hone
  cases hone

section Munch

variable {s rest : Bytes} {c : UInt8} {n : Nat} {r : ScanRule}

/-- A rule is taken if the rules that begin with the same character match less. -/
theorem munch_of_begins (hr : r ∈ ScanRule.symbols) (hn : 0 < n)
    (hlong : longest r.pattern (c :: s) = some n)
    (hcore : ∀ p ∈ coreRules, (ScanRule.core p.1 p.2).begins c = false ∨
      ∀ m, longest (word p.1) (c :: s) = some m → m < n)
    (hbefore : ∀ q ∈ r.before, q.begins c = false ∨
      ∀ m, longest q.pattern (c :: s) = some m → m < n)
    (hbehind : ∀ q ∈ r.behind, q.begins c = false ∨
      ∀ m, longest q.pattern (c :: s) = some m → m ≤ n) :
    munch (c :: s) = some (n, r) := by
  have hzero : ∀ {q : ScanRule} {m : Nat}, q.begins c = false →
      longest q.pattern (c :: s) = some m → m = 0 :=
    fun hbegins hm => longest_eq_zero ((starts_pattern _ c).trans hbegins) hm
  have hrules : scanRules =
      (coreRules.map (fun p => .core p.1 p.2) ++ r.before) ++ r :: r.behind := by
    rw [List.append_assoc, ← ScanRule.symbols_eq hr]
    rfl
  refine munch_eq _ r.behind hrules hlong ?_ ?_
  · intro q hq m hm
    rw [List.mem_append, List.mem_map] at hq
    obtain ⟨p, hp, rfl⟩ | hq := hq
    · obtain hbegins | hless := hcore p hp
      · exact (hzero hbegins hm).trans_lt hn
      · exact hless m hm
    · obtain hbegins | hless := hbefore q hq
      · exact (hzero hbegins hm).trans_lt hn
      · exact hless m hm
  · intro q hq m hm
    obtain hbegins | hless := hbehind q hq
    · exact (hzero hbegins hm).trans_le (Nat.zero_le n)
    · exact hless m hm

/-- No rule but the last one begins with the character. -/
def ScanRule.alone (r : ScanRule) (c : UInt8) : Bool :=
  !isLetter c && r.before.all (fun q => !q.begins c) &&
    r.behind.all fun q => !q.begins c || q == .any

theorem munch_alone (hr : r ∈ ScanRule.symbols) (halone : r.alone c = true) (hn : 0 < n)
    (hlong : longest r.pattern (c :: s) = some n) : munch (c :: s) = some (n, r) := by
  rw [ScanRule.alone, Bool.and_eq_true, Bool.and_eq_true, Bool.not_eq_true', List.all_eq_true,
    List.all_eq_true] at halone
  obtain ⟨⟨hletter, hbefore⟩, hbehind⟩ := halone
  refine munch_of_begins hr hn hlong (fun p hp => .inl (core_begins hp hletter))
    (fun q hq => .inl ?_) fun q hq => ?_
  · simpa using hbefore q hq
  · have hq' := hbehind q hq
    rw [Bool.or_eq_true, Bool.not_eq_true', beq_iff_eq] at hq'
    refine hq'.imp id ?_
    rintro rfl m hm
    rw [longest_cls hm]
    exact hn

/-- One blank is taken alone where another character follows. -/
theorem munch_blank (hs : ∀ c ∈ s.head?, isBlank c = false) :
    munch (32 :: s) = some (1, .blank) := by
  refine munch_alone (by decide) (by decide) Nat.zero_lt_one ?_
  refine longest_eq (Nat.le_add_left 1 _) (mem_many1_cls.mpr ⟨nofun, ?_⟩) fun m hle hm => ?_
  · exact List.forall_mem_singleton.mpr rfl
  · have hall := (mem_many1_cls.mp hm).2
    match s, m with
    | _, 0 => exact Nat.zero_le 1
    | _, 1 => exact Nat.le_refl 1
    | [], _ + 2 => exact absurd hle (by simp)
    | c :: s, m + 2 =>
        rw [List.take_succ_cons, List.take_succ_cons, List.forall_mem_cons,
          List.forall_mem_cons, hs c rfl] at hall
        cases hall.2.1

/-- A rule of one character. -/
theorem longest_one {p : UInt8 → Bool} (hc : p c = true) : longest (cls p) (c :: s) = some 1 :=
  longest_eq (Nat.le_add_left 1 _) (mem_cls.mpr ⟨c, hc, rfl⟩) fun m hle hm => by
    obtain ⟨d, _, hd⟩ := mem_cls.mp hm
    have hlen := congrArg List.length hd
    rw [List.length_take, Nat.min_eq_left hle, List.length_singleton] at hlen
    exact hlen.le

/-- A line ends at a line feed. -/
theorem munch_newline (s : Bytes) : munch (10 :: s) = some (1, .crlf) :=
  munch_alone (by decide) (by decide) Nat.zero_lt_one (longest_one rfl)

theorem longest_char {a : UInt8} {t : String} (ht : ascii t = [a]) :
    longest (str t) (a :: s) = some 1 :=
  longest_eq (Nat.le_add_left 1 _) (mem_str.mpr ht.symm) fun m hle hm => by
    have hlen := congrArg List.length (mem_str.mp hm)
    rw [List.length_take, Nat.min_eq_left hle, ht, List.length_singleton] at hlen
    exact hlen.le

theorem munch_slash (s : Bytes) : munch (47 :: s) = some (1, .slash) :=
  munch_alone (by decide) (by decide) Nat.zero_lt_one (longest_char rfl)

/-- The sign of a definition, where no slash follows. -/
theorem munch_equal (hs : ∀ c ∈ s.head?, c ≠ 47) : munch (61 :: s) = some (1, .equal) := by
  have hbefore : ScanRule.equal.before.all (fun q => !q.begins 61) = true := by decide
  have hbehind : ScanRule.equal.behind.all
      (fun q => !q.begins 61 || q == .any || q == .increqual) = true := by decide
  rw [List.all_eq_true] at hbefore hbehind
  refine munch_of_begins (by decide) Nat.zero_lt_one (longest_char rfl)
    (fun p hp => .inl (core_begins hp rfl)) (fun q hq => .inl ?_) fun q hq => ?_
  · simpa using hbefore q hq
  · have hq' := hbehind q hq
    rw [Bool.or_eq_true, Bool.or_eq_true, Bool.not_eq_true', beq_iff_eq, beq_iff_eq] at hq'
    obtain (hbegins | rfl) | rfl := hq'
    · exact .inl hbegins
    · exact .inr fun m hm => (longest_cls hm).le
    · refine .inr fun m hm => ?_
      have htake := mem_str.mp (of_longest hm).2
      match s, m with
      | _, 0 => exact Nat.zero_le 1
      | _, 1 => exact Nat.le_refl 1
      | [], _ + 2 => cases htake
      | c :: s, m + 2 =>
          rw [List.take_succ_cons, List.take_succ_cons] at htake
          have hc : c = 47 := (List.cons.inj (List.cons.inj htake).2).1
          exact absurd hc (hs c rfl)

/-- A string ends at the first quote. -/
theorem munch_charval {text : Bytes} (rest : Bytes) (h : ∀ c ∈ text, isText c = true) :
    munch ((quoted text h).text ++ rest) = some ((quoted text h).text.length, .charval) := by
  have hlong : longest charval (34 :: text ++ 34 :: rest) = some (text.length + 2) := by
    refine longest_closed (p := isText) (fun u hu => ?_) (by decide) (quoted text h).mem
    obtain ⟨v, hv, rfl⟩ := mem_charval.mp hu
    exact ⟨v, 34, hv, rfl⟩
  have hmunch := munch_alone (r := .charval) (by decide) (by decide) (Nat.zero_lt_succ _)
    hlong
  simpa [quoted] using hmunch

/-- A command ends at the first bracket. -/
theorem munch_command (t : Lexeme command) (rest : Bytes) :
    munch (t.text ++ rest) = some (t.text.length, .command) := by
  have hmem : ∀ u ∈ command.matches',
      ∃ v d, (∀ x ∈ v, isCommandText x = true) ∧ u = 60 :: v ++ [d] ∧ d = 62 := by
    intro u hu
    rw [command, mem_mul] at hu
    obtain ⟨_, hopen, _, hrest, rfl⟩ := hu
    obtain ⟨v, hv, _, hclose, rfl⟩ := mem_mul.mp hrest
    rw [mem_str] at hopen hclose
    subst hopen hclose
    exact ⟨v, 62, mem_star_cls.mp hv, rfl, rfl⟩
  obtain ⟨v, d, hv, ht, rfl⟩ := hmem t.text t.mem
  have hlong : longest command (60 :: v ++ 62 :: rest) = some (v.length + 2) := by
    refine longest_closed (p := isCommandText) (fun u hu => ?_) (by decide) (ht ▸ t.mem)
    obtain ⟨v, d, hv, hu, _⟩ := hmem u hu
    exact ⟨v, d, hv, hu⟩
  have hmunch := munch_alone (r := .command) (by decide) (by decide) (Nat.zero_lt_succ _)
    hlong
  simpa [ht] using hmunch

/-- A comment goes up to the end of the line. -/
theorem munch_comment {text : Bytes} (rest : Bytes)
    (h : ∀ c ∈ text, (isWsp c || isVchar c) = true) :
    munch (59 :: text ++ 10 :: rest) = some (text.length + 2, .comment) := by
  have hlong : longest comment (59 :: text ++ 10 :: rest) = some (text.length + 2) := by
    refine longest_closed (p := fun c => isWsp c || isVchar c) (fun u hu => ?_) (by decide) ?_
    · rw [comment, mem_mul] at hu
      obtain ⟨_, hopen, _, hrest, rfl⟩ := hu
      obtain ⟨v, hv, _, hclose, rfl⟩ := mem_mul.mp hrest
      obtain ⟨d, _, rfl⟩ := mem_cls.mp hclose
      rw [mem_str] at hopen
      subst hopen
      exact ⟨v, d, mem_star_cls.mp hv, rfl⟩
    · refine mem_mul.mpr ⟨[59], mem_str.mpr rfl, text ++ [10], ?_, rfl⟩
      exact mem_mul.mpr ⟨text, mem_star_cls.mpr h, [10], mem_cls.mpr ⟨10, rfl, rfl⟩, rfl⟩
  exact munch_alone (r := .comment) (by decide) (by decide) (Nat.zero_lt_succ _) hlong

/-! ## Numbers -/

/-- The ways a number begins. -/
def ScanRule.bases : ScanRule → List Bytes
  | .binval => [ascii "%b", ascii "%B"]
  | .decval => [ascii "%d", ascii "%D"]
  | .hexval => [ascii "%x", ascii "%X"]
  | _ => []

theorem take_two_of_mem_numval {lower upper : String} {isDig : UInt8 → Bool} {w : Bytes}
    (hlower : (ascii lower).length = 2) (hupper : (ascii upper).length = 2)
    (h : w ∈ (numval lower upper isDig).matches') : w.take 2 ∈ [ascii lower, ascii upper] := by
  rw [numval, mem_mul] at h
  obtain ⟨p, hp, v, _, rfl⟩ := h
  rw [mem_add, mem_str, mem_str] at hp
  obtain rfl | rfl := hp
  · rw [List.take_left' hlower]
    exact List.mem_cons_self
  · rw [List.take_left' hupper]
    exact List.mem_cons_of_mem _ List.mem_cons_self

theorem take_two_mem_bases {w : Bytes} (hr : r.bases ≠ []) (h : w ∈ r.pattern.matches') :
    w.take 2 ∈ r.bases := by
  cases r with
  | binval => exact take_two_of_mem_numval rfl rfl h
  | decval => exact take_two_of_mem_numval rfl rfl h
  | hexval => exact take_two_of_mem_numval rfl rfl h
  | _ => exact absurd rfl hr

theorem ScanRule.of_mem_bases {p : Bytes} (h : p ∈ r.bases) : ∃ c, p = [37, c] := by
  have hall : ∀ ps : List Bytes, (ps.all fun p => p.length == 2 && p.head? == some 37) = true →
      p ∈ ps → ∃ c, p = [37, c] := by
    intro ps hps hp
    have hone := List.all_eq_true.mp hps p hp
    match p with
    | [] => cases hone
    | [_] => cases hone
    | c :: d :: _ :: _ => cases hone
    | [c, d] =>
        have hc : c = 37 := by simpa using hone
        exact ⟨d, by rw [hc]⟩
  cases r with
  | binval => exact hall _ rfl h
  | decval => exact hall _ rfl h
  | hexval => exact hall _ rfl h
  | _ => cases h

/-- The rule begins with another character than a number, or it is a number of another
base. -/
def ScanRule.otherBase (r q : ScanRule) : Bool :=
  !q.begins 37 || (q.bases != [] && q.bases.all fun p => !r.bases.contains p)

/-- A number of another base does not match. -/
theorem ScanRule.not_longest_of_otherBase {q : ScanRule} {w : Bytes} {m : Nat} (hr : r.bases ≠ [])
    (hw : w ∈ r.pattern.matches') (hq : q.bases ≠ [])
    (hbases : ∀ p ∈ q.bases, p ∉ r.bases) : longest q.pattern (w ++ rest) ≠ some m := by
  intro hm
  have hbase := take_two_mem_bases hr hw
  have hother := take_two_mem_bases hq (of_longest hm).2
  obtain ⟨c, hc⟩ := of_mem_bases hbase
  obtain ⟨d, hd⟩ := of_mem_bases hother
  have hwlen := congrArg List.length hc
  have hmlen := congrArg List.length hd
  rw [List.length_take] at hwlen hmlen
  rw [List.length_take] at hmlen
  simp only [List.length_cons, List.length_nil] at hwlen hmlen
  refine hbases _ hother ?_
  rw [List.take_take, Nat.min_eq_left (by omega), List.take_append_of_le_length (by omega)]
  exact hbase

/-- Where a character follows that numbers do not have, a number is taken as a whole. -/
theorem munch_of_otherBase {p : UInt8 → Bool} {w : Bytes} (hmem : r ∈ ScanRule.symbols)
    (hr : r.bases ≠ []) (hplain : r.pattern.allIn (fun c => !p c) = true)
    (hbefore : r.before.all r.otherBase = true)
    (hbehind : (r.behind.all fun q => r.otherBase q || q == .any) = true)
    (hw : w ∈ r.pattern.matches') (hrest : ∀ c ∈ rest.head?, p c = true) :
    munch (w ++ rest) = some (w.length, r) := by
  obtain ⟨c, hc⟩ := ScanRule.of_mem_bases (take_two_mem_bases hr hw)
  obtain ⟨t, ht⟩ : ∃ t, w = 37 :: t := by
    cases w with
    | nil => cases hc
    | cons d t =>
        rw [List.take_succ_cons] at hc
        exact ⟨t, congrArg (· :: t) (List.cons.inj hc).1⟩
  have hpos : 0 < w.length := by
    rw [ht]
    exact Nat.succ_pos _
  have hother : ∀ q, r.otherBase q = true → q.begins 37 = false ∨
      ∀ m, longest q.pattern (w ++ rest) ≠ some m := by
    intro q hq
    rw [ScanRule.otherBase, Bool.or_eq_true, Bool.and_eq_true, Bool.not_eq_true',
      List.all_eq_true] at hq
    refine hq.imp id fun h m => ScanRule.not_longest_of_otherBase hr hw (by simpa using h.1) ?_
    intro p hp
    simpa using h.2 p hp
  have hlong := longest_plain hw hplain hrest
  rw [List.all_eq_true] at hbefore hbehind
  have hcons : w ++ rest = 37 :: (t ++ rest) := by rw [ht, List.cons_append]
  rw [hcons] at hlong hother ⊢
  refine munch_of_begins hmem hpos hlong (fun p hp => .inl (core_begins hp rfl)) (fun q hq => ?_)
    fun q hq => ?_
  · exact (hother q (hbefore q hq)).imp id fun h m hm => absurd hm (h m)
  · have hq' := hbehind q hq
    rw [Bool.or_eq_true, beq_iff_eq] at hq'
    obtain hbase | rfl := hq'
    · exact (hother q hbase).imp id fun h m hm => absurd hm (h m)
    · exact .inr fun m hm => (longest_cls hm).trans_le hpos

/-- A number ends at the next blank or line end. -/
theorem munch_number {w : Bytes} (hr : r.bases ≠ []) (hw : w ∈ r.pattern.matches')
    (hrest : ∀ c ∈ rest.head?, isStop c = true) :
    munch (w ++ rest) = some (w.length, r) := by
  cases r with
  | binval =>
      exact munch_of_otherBase (by decide) hr (by decide +kernel)
        (by decide +kernel) (by decide +kernel) hw hrest
  | decval =>
      exact munch_of_otherBase (by decide) hr (by decide +kernel)
        (by decide +kernel) (by decide +kernel) hw hrest
  | hexval =>
      exact munch_of_otherBase (by decide) hr (by decide +kernel)
        (by decide +kernel) (by decide +kernel) hw hrest
  | _ => exact absurd rfl hr

/-! ## Names -/

/-- A name with a dash ends at the next blank or line end. -/
theorem munch_rulename {w : Bytes} (hw : w ∈ rulename.matches') (hdash : 45 ∈ w)
    (hrest : ∀ c ∈ rest.head?, isStop c = true) :
    munch (w ++ rest) = some (w.length, .rulename) := by
  have hplain : coreRules.all (fun p => !p.1.contains 45) = true := by decide +kernel
  have hbefore : ScanRule.rulename.before.all (fun q =>
      (bytesOf isLetter).all fun c => !q.begins c) = true := by decide +kernel
  obtain ⟨c, t, hc, _, rfl⟩ := mem_rulename.mp hw
  have hlong := longest_plain hw (by decide +kernel) hrest
  rw [List.all_eq_true] at hplain hbefore
  refine munch_of_begins (by decide) (Nat.succ_pos _) hlong (fun p hp => .inr fun m hm => ?_)
    (fun q hq => .inl ?_) fun q hq => ?_
  -- A core rule that is as long has no dash.
  · by_contra hle
    have htake : ((c :: t) ++ rest).take m = p.1 := mem_word.mp (of_longest hm).2
    have hmem : (45 : UInt8) ∈ ((c :: t) ++ rest).take m := by
      rw [List.take_append, List.take_of_length_le (Nat.le_of_not_lt hle)]
      exact List.mem_append_left _ hdash
    rw [htake] at hmem
    simpa [hmem] using hplain p hp
  · have hq' := List.all_eq_true.mp (hbefore q hq) c (mem_bytesOf.mpr hc)
    simpa using hq'
  · have hany : q = .any := by
      have hlast : ScanRule.rulename.behind = [.any] := by decide
      rwa [hlast, List.mem_singleton] at hq
    rw [hany]
    exact .inr fun m hm => (longest_cls hm).trans_le (Nat.succ_pos _)

/-- The token of a leaf ends at the next blank or line end. -/
theorem munch_literal (l : Literal) (hrest : ∀ c ∈ rest.head?, isStop c = true) :
    munch (l.token.text ++ rest) = some (l.token.text.length, l.token.rule) := by
  cases l with
  | charval t =>
      obtain ⟨w, hw⟩ := t
      obtain ⟨text, htext, rfl⟩ := mem_charval.mp hw
      exact munch_charval rest htext
  | binval t => exact munch_number (r := .binval) nofun t.mem hrest
  | decval t => exact munch_number (r := .decval) nofun t.mem hrest
  | hexval t => exact munch_number (r := .hexval) nofun t.mem hrest

/-- The rule that is taken has the longest match, which is not empty. -/
theorem of_munch (h : munch (c :: s) = some (n, r)) :
    r ∈ scanRules ∧ longest r.pattern (c :: s) = some n ∧ 0 < n := by
  rw [munch] at h
  obtain ⟨q, hq, hmap⟩ := List.mem_filterMap.mp (List.argmax_mem (Option.mem_def.mpr h))
  obtain ⟨m, hm, heq⟩ := Option.map_eq_some_iff.mp hmap
  cases heq
  refine ⟨hq, hm, ?_⟩
  have hone : ∀ q ∈ scanRules, longest q.pattern (c :: s) = some 1 → 1 ≤ n := by
    intro q hq hlong
    have hmem : (1, q) ∈ scanRules.filterMap fun r =>
        (longest r.pattern (c :: s)).map (·, r) :=
      List.mem_filterMap.mpr ⟨q, hq, Option.map_eq_some_iff.mpr ⟨1, hlong, rfl⟩⟩
    exact List.le_of_mem_argmax hmem (Option.mem_def.mpr h)
  by_cases hc : c = 10
  · exact hone .crlf (by decide) (longest_one (by rw [hc]; rfl))
  · exact hone .any (by decide) (longest_one (by simpa using hc))

end Munch

/-! ## Whole texts -/

/-- The tokens of a text. -/
def Scans (s : Bytes) (ts : List Token) : Prop :=
  ∃ enough, ∀ fuel, enough ≤ fuel → scan fuel [s] = some ts

/-- A match of the rule becomes a token. -/
def ScanRule.emits : ScanRule → Bool
  | .core _ _ => false
  | .blank => false
  | _ => true

section Scans

variable {s w : Bytes} {ts : List Token} {r : ScanRule}

theorem scan_token {fuel n : Nat} {c : UInt8} {buffers : List Bytes}
    (hm : munch (c :: s) = some (n, r)) (hr : r.emits = true) :
    scan (fuel + 1) ((c :: s) :: buffers) =
      (scan fuel ((c :: s).drop n :: buffers)).map (⟨r, (c :: s).take n⟩ :: ·) := by
  rw [scan, hm]
  cases r with
  | core => cases hr
  | blank => cases hr
  | _ => rfl

theorem Scans.nil : Scans [] [] := by
  refine ⟨2, fun fuel hle => ?_⟩
  obtain ⟨k, rfl⟩ : ∃ k, fuel = k + 2 := ⟨fuel - 2, by omega⟩
  rw [scan, scan]

theorem Scans.blank (hs : ∀ c ∈ s.head?, isBlank c = false) (h : Scans s ts) :
    Scans (32 :: s) ts := by
  obtain ⟨enough, h⟩ := h
  refine ⟨enough + 1, fun fuel hle => ?_⟩
  obtain ⟨k, rfl⟩ : ∃ k, fuel = k + 1 := ⟨fuel - 1, by omega⟩
  rw [scan_blank (munch_blank hs), h k (by omega)]

theorem Scans.token (hne : w ≠ []) (hm : munch (w ++ s) = some (w.length, r))
    (hr : r.emits = true) (h : Scans s ts) : Scans (w ++ s) (⟨r, w⟩ :: ts) := by
  obtain ⟨c, w, rfl⟩ := List.exists_cons_of_ne_nil hne
  obtain ⟨enough, h⟩ := h
  refine ⟨enough + 1, fun fuel hle => ?_⟩
  obtain ⟨k, rfl⟩ : ∃ k, fuel = k + 1 := ⟨fuel - 1, by omega⟩
  rw [List.cons_append] at hm ⊢
  rw [scan_token hm hr, ← List.cons_append, List.drop_left, List.take_left, h k (by omega)]
  rfl

/-! ## Lines -/

/-- `cnl`. -/
def Token.isCnl (t : Token) : Bool := t.rule == .crlf || t.rule == .comment

/-- A match with a line feed is a `cnl` and ends there. -/
theorem of_mem_newline (hr : r ∈ scanRules) (hw : w ∈ r.pattern.matches') (hmem : 10 ∈ w) :
    (r = .crlf ∨ r = .comment) ∧ ∃ v, 10 ∉ v ∧ w = v ++ [10] := by
  have hplain : scanRules.all (fun r =>
      r == .crlf || r == .comment || r.pattern.allIn fun c => c != 10) = true := by
    decide +kernel
  have hrule := List.all_eq_true.mp hplain r hr
  rw [Bool.or_eq_true, Bool.or_eq_true, beq_iff_eq, beq_iff_eq] at hrule
  obtain (rfl | rfl) | hnot := hrule
  · obtain ⟨c, _, rfl⟩ := mem_cls.mp hw
    rw [List.mem_singleton] at hmem
    exact ⟨.inl rfl, [], nofun, by rw [← hmem]; rfl⟩
  · refine ⟨.inr rfl, ?_⟩
    obtain ⟨_, hopen, _, hrest, rfl⟩ := mem_mul.mp hw
    obtain ⟨v, hv, _, hclose, rfl⟩ := mem_mul.mp hrest
    obtain ⟨d, _, rfl⟩ := mem_cls.mp hclose
    rw [mem_str.mp hopen] at hmem ⊢
    have hfront : (10 : UInt8) ∉ ascii ";" ++ v := by
      rw [List.mem_append]
      rintro (hsemi | hmem)
      · cases hsemi with
        | tail _ hnil => cases hnil
      · have hten := mem_star_cls.mp hv 10 hmem
        cases hten
    rw [← List.append_assoc] at hmem ⊢
    have hd : d = 10 := by
      obtain hin | hin := List.mem_append.mp hmem
      · exact absurd hin hfront
      · exact (List.mem_singleton.mp hin).symm
    exact ⟨_, hfront, by rw [hd]⟩
  · have hten := forall_mem_of_allIn hnot hw 10 hmem
    cases hten

/-- A step of the scanner leaves the text behind the match, below an expansion if there
is one. -/
theorem of_scan_cons {fuel : Nat} {c : UInt8} {buffers : List Bytes}
    (h : scan (fuel + 1) ((c :: s) :: buffers) = some ts) :
    ∃ n r front ts₁ ts₂, munch (c :: s) = some (n, r) ∧ ts = ts₁ ++ ts₂ ∧
      scan fuel (front ++ (c :: s).drop n :: buffers) = some ts₂ ∧
      (r.emits = true → front = [] ∧ ts₁ = [⟨r, (c :: s).take n⟩]) := by
  cases hm : munch (c :: s) with
  | none =>
      rw [scan, hm] at h
      cases h
  | some p =>
      obtain ⟨n, r⟩ := p
      cases hr : r.emits with
      | true =>
          rw [scan_token hm hr] at h
          obtain ⟨ts₂, hts, rfl⟩ := Option.map_eq_some_iff.mp h
          exact ⟨n, r, [], [_], ts₂, rfl, rfl, hts, fun _ => ⟨rfl, rfl⟩⟩
      | false =>
          rw [scan, hm] at h
          cases r with
          | core name expansion =>
              refine ⟨n, _, [expansion], [], ts, rfl, rfl, h, fun hr' => ?_⟩
              rw [hr] at hr'
              cases hr'
          | blank =>
              refine ⟨n, _, [], [], ts, rfl, rfl, h, fun hr' => ?_⟩
              rw [hr] at hr'
              cases hr'
          | _ => cases hr

/-- Where a match goes beyond a line feed, it ends there. -/
theorem drop_eq_of_newline {n : Nat} {line rest v : Bytes} (hn : line.length < n)
    (hle : n ≤ (line ++ 10 :: rest).length) (hv : 10 ∉ v)
    (htake : (line ++ 10 :: rest).take n = v ++ [10]) :
    (line ++ 10 :: rest).drop n = rest := by
  obtain ⟨k, rfl⟩ : ∃ k, n = line.length + (k + 1) := ⟨n - line.length - 1, by omega⟩
  rw [List.take_length_add_append, List.take_succ_cons] at htake
  rw [List.drop_length_add_append, List.drop_succ_cons]
  rw [List.length_append, List.length_cons] at hle
  cases k with
  | zero => rw [List.drop_zero]
  | succ k =>
      -- There would be a character behind the line feed.
      have hsplit : rest.take (k + 1) ≠ [] := by
        rw [← List.length_pos_iff, List.length_take]
        omega
      obtain ⟨u, x, hu⟩ : ∃ u x, rest.take (k + 1) = u ++ [x] :=
        ⟨_, _, (List.dropLast_append_getLast hsplit).symm⟩
      rw [hu, ← List.cons_append, ← List.append_assoc] at htake
      have hfront := List.append_inj_left' htake rfl
      exact absurd (hfront ▸ List.mem_append_right line List.mem_cons_self) hv

/-- The scanner begins a token behind every line feed, and the one before is a `cnl`.
By induction on the fuel, below the expansions of core rules. -/
theorem scan_line {fuel : Nat} {front buffers : List Bytes} {line rest : Bytes}
    (h : scan fuel (front ++ (line ++ 10 :: rest) :: buffers) = some ts) :
    ∃ fuel' ts₁ t ts₂, t.isCnl = true ∧ ts = ts₁ ++ t :: ts₂ ∧
      scan fuel' (rest :: buffers) = some ts₂ := by
  induction fuel generalizing front line ts with
  | zero => cases h
  | succ fuel ih =>
      have hbelow : ∀ (front : List Bytes) (line : Bytes) (ts₁ : List Token) {ts₂ : List Token},
          ts = ts₁ ++ ts₂ → scan fuel (front ++ (line ++ 10 :: rest) :: buffers) = some ts₂ →
          ∃ fuel' ts₁ t ts₂, t.isCnl = true ∧ ts = ts₁ ++ t :: ts₂ ∧
            scan fuel' (rest :: buffers) = some ts₂ := by
        intro front line ts₁ ts₂ hts hscan
        obtain ⟨fuel', ts₃, t, ts₄, ht, rfl, hrest⟩ := ih hscan
        exact ⟨fuel', ts₁ ++ ts₃, t, ts₄, ht, by rw [hts, List.append_assoc], hrest⟩
      cases front with
      | nil =>
          obtain ⟨c, s, hcs⟩ := List.exists_cons_of_ne_nil
            (List.append_ne_nil_of_right_ne_nil line (List.cons_ne_nil 10 rest))
          rw [List.nil_append, hcs] at h
          obtain ⟨n, r, front, ts₁, ts₂, hm, hts, hscan, hemits⟩ := of_scan_cons h
          rw [← hcs] at hm hscan hemits
          by_cases hn : n ≤ line.length
          · rw [List.drop_append_of_le_length hn] at hscan
            exact hbelow front _ ts₁ hts hscan
          · rw [hcs] at hm
            obtain ⟨hr, hlong, _⟩ := of_munch hm
            rw [← hcs] at hlong
            obtain ⟨hle, htake⟩ := of_longest hlong
            have hmem : 10 ∈ (line ++ 10 :: rest).take n := mem_take_of_lt (Nat.lt_of_not_le hn)
            obtain ⟨hcnl, v, hv, hend⟩ := of_mem_newline hr htake hmem
            rw [drop_eq_of_newline (Nat.lt_of_not_le hn) hle hv hend] at hscan
            obtain rfl | rfl := hcnl
            · obtain ⟨rfl, rfl⟩ := hemits rfl
              exact ⟨fuel, [], _, ts₂, rfl, hts, hscan⟩
            · obtain ⟨rfl, rfl⟩ := hemits rfl
              exact ⟨fuel, [], _, ts₂, rfl, hts, hscan⟩
      | cons b front =>
          cases b with
          | nil => exact hbelow front line [] rfl h
          | cons c s =>
              obtain ⟨n, r, front', ts₁, ts₂, _, hts, hscan, _⟩ := of_scan_cons h
              refine hbelow (front' ++ (c :: s).drop n :: front) line ts₁ hts ?_
              rw [List.append_assoc, List.cons_append]
              exact hscan

/-- The characters that names of groups, options, alternations and repetitions begin
with, and the dash. -/
def isForeign (c : UInt8) : Bool := [40, 42, 45, 47, 91].contains c || isDigit c

/-- The first token of a text is neither a rule name nor a `cnl` where the text begins
with a foreign character. -/
theorem scan_foreign {fuel : Nat} {c : UInt8} {buffers : List Bytes} (hc : isForeign c = true)
    (h : scan fuel ((c :: s) :: buffers) = some ts) :
    ∃ t ts', ts = t :: ts' ∧ t.rule ≠ .rulename ∧ t.isCnl = false := by
  have hothers : (bytesOf isForeign).all (fun c => !isLetter c && ScanRule.symbols.all fun r =>
      !r.begins c || (r.emits && r != .rulename && r != .crlf && r != .comment)) = true := by
    decide +kernel
  cases fuel with
  | zero => cases h
  | succ fuel =>
      obtain ⟨n, r, front, ts₁, ts₂, hm, rfl, _, hemits⟩ := of_scan_cons h
      obtain ⟨hr, hlong, hpos⟩ := of_munch hm
      have hc' := List.all_eq_true.mp hothers c (mem_bytesOf.mpr hc)
      rw [Bool.and_eq_true, Bool.not_eq_true', List.all_eq_true] at hc'
      have hrule : r.begins c = false ∨
          (r.emits && r != .rulename && r != .crlf && r != .comment) = true := by
        obtain ⟨p, hp, rfl⟩ | hr := mem_scanRules.mp hr
        · exact .inl (core_begins hp hc'.1)
        · simpa only [Bool.or_eq_true, Bool.not_eq_true'] using hc'.2 r hr
      obtain hbegins | hrule := hrule
      · rw [longest_eq_zero ((starts_pattern r c).trans hbegins) hlong] at hpos
        cases hpos
      · simp only [Bool.and_eq_true, bne_iff_ne] at hrule
        obtain ⟨⟨⟨hr, hname⟩, hcrlf⟩, hcomment⟩ := hrule
        obtain ⟨_, rfl⟩ := hemits hr
        refine ⟨_, ts₂, rfl, hname, ?_⟩
        simp [Token.isCnl, hcrlf, hcomment]

end Scans

/-! ## Every text has tokens -/

section Totality

variable {s : Bytes} {ts ts' : List Token} {fuel : Nat} {buffers : List Bytes}

/-- A rule matches at every character, as each of them is a `crlf` or `any`. -/
theorem exists_munch (c : UInt8) (s : Bytes) : ∃ n r, munch (c :: s) = some (n, r) := by
  cases hm : munch (c :: s) with
  | some p => exact ⟨p.1, p.2, rfl⟩
  | none =>
      rw [munch, List.argmax_eq_none, List.filterMap_eq_nil_iff] at hm
      by_cases hc : c = 10
      · have hcrlf := hm .crlf (by decide)
        rw [ScanRule.pattern, longest_one (by rw [hc]; rfl)] at hcrlf
        cases hcrlf
      · have hany := hm .any (by decide)
        rw [ScanRule.pattern, longest_one (by simpa using hc)] at hany
        cases hany

theorem scan_succ (h : scan fuel buffers = some ts) : scan (fuel + 1) buffers = some ts := by
  induction fuel generalizing buffers ts with
  | zero => cases h
  | succ fuel ih =>
      cases buffers with
      | nil => exact h
      | cons b buffers =>
          cases b with
          | nil => exact ih h
          | cons c s =>
              obtain ⟨n, r, hm⟩ := exists_munch c s
              cases hr : r.emits with
              | true =>
                  rw [scan_token hm hr] at h ⊢
                  obtain ⟨us, hus, rfl⟩ := Option.map_eq_some_iff.mp h
                  rw [ih hus, Option.map_some]
              | false =>
                  rw [scan, hm] at h ⊢
                  cases r with
                  | core => exact ih h
                  | blank => exact ih h
                  | _ => cases hr

theorem scans_of_scan (h : scan fuel [s] = some ts) : Scans s ts := by
  refine ⟨fuel, fun fuel' hle => ?_⟩
  induction hle with
  | refl => exact h
  | step _ ih => exact scan_succ ih

/-- A text has one sequence of tokens. -/
theorem Scans.unique (h : Scans s ts) (h' : Scans s ts') : ts = ts' := by
  obtain ⟨enough, h⟩ := h
  obtain ⟨enough', h'⟩ := h'
  have hmax := h _ (Nat.le_max_left enough enough')
  rw [h' _ (Nat.le_max_right enough enough')] at hmax
  exact (Option.some.inj hmax).symm

/-- The scanner gets to the end of a buffer. -/
def BufferEnds (b : Bytes) : Prop :=
  ∀ buffers, (∃ fuel ts, scan fuel buffers = some ts) →
    ∃ fuel ts, scan fuel (b :: buffers) = some ts

/-- A buffer ends if the expansions of the core rules in it do. -/
theorem bufferEnds_of_core {b : Bytes} (h : ∀ p ∈ coreRules, p.1 <:+: b → BufferEnds p.2) :
    BufferEnds b := by
  induction hlen : b.length using Nat.strong_induction_on generalizing b with
  | _ k ih =>
      rintro buffers ⟨fuel, ts, hts⟩
      cases b with
      | nil => exact ⟨fuel + 1, ts, hts⟩
      | cons c s =>
          obtain ⟨n, r, hm⟩ := exists_munch c s
          obtain ⟨hr, hlong, hpos⟩ := of_munch hm
          have hsuffix : (c :: s).drop n <:+: c :: s := (List.drop_suffix n _).isInfix
          have hless : ((c :: s).drop n).length < k := by
            rw [List.length_drop, ← hlen, List.length_cons]
            omega
          have hrest := ih _ hless (fun p hp hin => h p hp (hin.trans hsuffix)) rfl buffers
            ⟨fuel, ts, hts⟩
          cases hemits : r.emits with
          | true =>
              obtain ⟨fuel, ts, hts⟩ := hrest
              exact ⟨fuel + 1, _, by rw [scan_token hm hemits, hts, Option.map_some]⟩
          | false =>
              cases r with
              | core name expansion =>
                  have hname : name <:+: c :: s := by
                    rw [← mem_word.mp (of_longest hlong).2]
                    exact (List.take_prefix n _).isInfix
                  have hcore : (name, expansion) ∈ coreRules := by
                    obtain ⟨p, hp, heq⟩ | hsymbol := mem_scanRules.mp hr
                    · cases heq
                      exact hp
                    · simp [ScanRule.symbols] at hsymbol
                  obtain ⟨fuel, ts, hts⟩ := h _ hcore hname _ hrest
                  exact ⟨fuel + 1, ts, by rw [scan, hm]; exact hts⟩
              | blank =>
                  obtain ⟨fuel, ts, hts⟩ := hrest
                  exact ⟨fuel + 1, ts, by rw [scan, hm]; exact hts⟩
              | _ => cases hemits

/-- How far the expansions of a core rule have core rules in them. -/
def coreDepth (name : Bytes) : Nat :=
  if name = ascii "LWSP" then 2
  else if [ascii "CRLF", ascii "HEXDIG", ascii "WSP"].contains name then 1 else 0

theorem coreDepth_lt {p q : Bytes × Bytes} (hp : p ∈ coreRules) (hq : q ∈ coreRules)
    (h : q.1 <:+: p.2) : coreDepth q.1 < coreDepth p.1 := by
  have hall : coreRules.all (fun p => coreRules.all fun q =>
      !decide (q.1 <:+: p.2) || decide (coreDepth q.1 < coreDepth p.1)) = true := by
    decide +kernel
  have hone := List.all_eq_true.mp (List.all_eq_true.mp hall p hp) q hq
  simpa [h] using hone

theorem bufferEnds_core {p : Bytes × Bytes} (hp : p ∈ coreRules) : BufferEnds p.2 := by
  induction hd : coreDepth p.1 using Nat.strong_induction_on generalizing p with
  | _ d ih => exact bufferEnds_of_core fun q hq hin => ih _ (hd ▸ coreDepth_lt hp hq hin) hq rfl

/-- The scanner gets to the end of every text. -/
theorem exists_scans (s : Bytes) : ∃ ts, Scans s ts := by
  have hends : BufferEnds s := bufferEnds_of_core fun _ hp _ => bufferEnds_core hp
  obtain ⟨fuel, ts, hts⟩ := hends [] ⟨1, [], rfl⟩
  exact ⟨ts, scans_of_scan hts⟩

end Totality
end Stress

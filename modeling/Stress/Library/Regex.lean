import Mathlib.Computability.RegularExpressions

/-!
# Patterns of a scanner

The operators of lexer generators over `RegularExpression`: character classes,
words, repetition at least once and options, with the words they match.

Two approximations say which prefixes of an input a pattern can match.  `starts`
is true of every first character of a match, and `allIn` says that a pattern has
only characters of a class.  Both are computed on the pattern.
-/

namespace RegularExpression

variable {α : Type*} {P Q : RegularExpression α} {p : α → Bool} {w : List α}

/-! ## Operators -/

/-- One of the given characters. -/
def oneOf (cs : List α) : RegularExpression α := (cs.map char).sum

/-- The given word. -/
def word (w : List α) : RegularExpression α := (w.map char).prod

/-- `P` once or more often. -/
def many1 (P : RegularExpression α) : RegularExpression α := P * P.star

/-- `P` or nothing. -/
def opt (P : RegularExpression α) : RegularExpression α := 1 + P

theorem mem_add : w ∈ (P + Q).matches' ↔ w ∈ P.matches' ∨ w ∈ Q.matches' := by
  rw [matches'_add, Language.mem_add]

theorem mem_mul : w ∈ (P * Q).matches' ↔ ∃ u ∈ P.matches', ∃ v ∈ Q.matches', u ++ v = w := by
  rw [matches'_mul, Language.mem_mul]

theorem mem_star : w ∈ P.star.matches' ↔ ∃ ws : List (List α), w = ws.flatten ∧
    ∀ v ∈ ws, v ∈ P.matches' := by
  rw [matches'_star, Language.mem_kstar]

theorem mem_many1 : w ∈ (many1 P).matches' ↔ ∃ ws : List (List α), ws ≠ [] ∧ w = ws.flatten ∧
    ∀ v ∈ ws, v ∈ P.matches' := by
  rw [many1, mem_mul]
  simp only [mem_star]
  constructor
  · rintro ⟨u, hu, _, ⟨ws, rfl, hws⟩, rfl⟩
    exact ⟨u :: ws, nofun, rfl, List.forall_mem_cons.mpr ⟨hu, hws⟩⟩
  · rintro ⟨ws, hne, rfl, hws⟩
    obtain ⟨u, us, rfl⟩ := List.exists_cons_of_ne_nil hne
    rw [List.forall_mem_cons] at hws
    exact ⟨u, hws.1, us.flatten, ⟨us, rfl, hws.2⟩, rfl⟩

theorem mem_opt : w ∈ (opt P).matches' ↔ w = [] ∨ w ∈ P.matches' := by
  rw [opt, mem_add, matches'_epsilon, Language.mem_one]

theorem mem_word {u : List α} : w ∈ (word u).matches' ↔ w = u := by
  induction u generalizing w with
  | nil => exact Language.mem_one w
  | cons a u ih =>
      have hcons : word (a :: u) = char a * word u := rfl
      rw [hcons, mem_mul, matches'_char]
      constructor
      · rintro ⟨_, rfl, v, hv, rfl⟩
        rw [ih.mp hv]
        rfl
      · rintro rfl
        exact ⟨[a], rfl, u, ih.mpr rfl, rfl⟩

theorem mem_oneOf {cs : List α} : w ∈ (oneOf cs).matches' ↔ ∃ c ∈ cs, w = [c] := by
  induction cs with
  | nil =>
      refine ⟨fun h => absurd h (Language.notMem_zero w), ?_⟩
      rintro ⟨c, hc, _⟩
      cases hc
  | cons a cs ih =>
      have hcons : oneOf (a :: cs) = char a + oneOf cs := rfl
      rw [hcons, mem_add, ih, matches'_char]
      constructor
      · rintro (rfl | ⟨c, hc, rfl⟩)
        · exact ⟨a, List.mem_cons_self, rfl⟩
        · exact ⟨c, List.mem_cons_of_mem a hc, rfl⟩
      · rintro ⟨c, hc, rfl⟩
        cases List.mem_cons.mp hc with
        | inl heq =>
            left
            rw [heq]
            rfl
        | inr hmem => exact .inr ⟨c, hmem, rfl⟩

/-- Characters of a class, in any number. -/
theorem mem_star_oneOf {cs : List α} : w ∈ (oneOf cs).star.matches' ↔ ∀ c ∈ w, c ∈ cs := by
  rw [mem_star]
  constructor
  · rintro ⟨ws, rfl, hws⟩ c hc
    obtain ⟨v, hv, hcv⟩ := List.mem_flatten.mp hc
    obtain ⟨d, hd, rfl⟩ := mem_oneOf.mp (hws v hv)
    rw [List.mem_singleton.mp hcv]
    exact hd
  · intro hw
    refine ⟨w.map fun c => [c], ?_, ?_⟩
    · rw [← List.flatMap_def, List.flatMap_singleton']
    · intro v hv
      obtain ⟨c, hc, rfl⟩ := List.mem_map.mp hv
      exact mem_oneOf.mpr ⟨c, hw c hc, rfl⟩

/-- Characters of a class, at least one. -/
theorem mem_many1_oneOf {cs : List α} :
    w ∈ (many1 (oneOf cs)).matches' ↔ w ≠ [] ∧ ∀ c ∈ w, c ∈ cs := by
  rw [many1, mem_mul]
  constructor
  · rintro ⟨_, hu, v, hv, rfl⟩
    obtain ⟨c, hc, rfl⟩ := mem_oneOf.mp hu
    exact ⟨nofun, List.forall_mem_cons.mpr ⟨hc, mem_star_oneOf.mp hv⟩⟩
  · rintro ⟨hne, hw⟩
    cases w with
    | nil => exact absurd rfl hne
    | cons c v =>
        rw [List.forall_mem_cons] at hw
        exact ⟨[c], mem_oneOf.mpr ⟨c, hw.1, rfl⟩, v, mem_star_oneOf.mpr hw.2, rfl⟩

/-! ## First characters -/

/-- Whether a match can begin with `a`. -/
def starts [DecidableEq α] : RegularExpression α → α → Bool
  | zero, _ => false
  | epsilon, _ => false
  | char b, a => a = b
  | plus P Q, a => starts P a || starts Q a
  | comp P Q, a => starts P a || (matchEpsilon P && starts Q a)
  | star P, a => starts P a

theorem matchEpsilon_of_nil [DecidableEq α] (h : [] ∈ P.matches') : P.matchEpsilon = true :=
  (rmatch_iff_matches' P []).mpr h

theorem starts_of_mem [DecidableEq α] {a : α} (h : a :: w ∈ P.matches') : P.starts a = true := by
  induction P generalizing w with
  | zero => exact absurd h (Language.notMem_zero _)
  | epsilon => cases (Language.mem_one _).mp h
  | char b =>
      cases h
      exact decide_eq_true rfl
  | plus P Q ihP ihQ =>
      rw [plus_def, mem_add] at h
      rw [starts, Bool.or_eq_true]
      exact h.imp ihP ihQ
  | comp P Q ihP ihQ =>
      rw [comp_def, mem_mul] at h
      rw [starts, Bool.or_eq_true, Bool.and_eq_true]
      obtain ⟨u, hu, v, hv, huv⟩ := h
      cases u with
      | nil =>
          rw [List.nil_append] at huv
          exact .inr ⟨matchEpsilon_of_nil hu, ihQ (huv ▸ hv)⟩
      | cons b u =>
          cases huv
          exact .inl (ihP hu)
  | star P ih =>
      rw [mem_star] at h
      rw [starts]
      obtain ⟨ws, hflat, hws⟩ := h
      induction ws with
      | nil => cases hflat
      | cons v ws ihws =>
          rw [List.forall_mem_cons] at hws
          cases v with
          | nil => exact ihws hflat hws.2
          | cons b v =>
              cases hflat
              exact ih hws.1

theorem starts_add [DecidableEq α] (a : α) :
    (P + Q).starts a = (P.starts a || Q.starts a) := rfl

theorem starts_oneOf [DecidableEq α] {cs : List α} {a : α} :
    (oneOf cs).starts a = true ↔ a ∈ cs := by
  induction cs with
  | nil => exact ⟨nofun, nofun⟩
  | cons b cs ih =>
      have hcons : oneOf (b :: cs) = char b + oneOf cs := rfl
      rw [hcons, starts_add, Bool.or_eq_true, ih, List.mem_cons, starts, decide_eq_true_iff]

section

variable [DecidableEq α] {a : α}

theorem starts_mul : (P * Q).starts a = (P.starts a || (P.matchEpsilon && Q.starts a)) := rfl

theorem starts_star : P.star.starts a = P.starts a := rfl

theorem starts_many1 : (many1 P).starts a = P.starts a := by
  rw [many1, starts_mul, starts_star]
  cases P.starts a with
  | false => exact Bool.and_false _
  | true => rfl

theorem starts_word {u : List α} : (word u).starts a = (u.head? == some a) := by
  cases u with
  | nil => rfl
  | cons b u =>
      have hcons : word (b :: u) = char b * word u := rfl
      rw [hcons, starts_mul, starts, matchEpsilon, Bool.false_and, Bool.or_false, List.head?_cons,
        Option.some_beq_some, Bool.eq_iff_iff, decide_eq_true_iff, beq_iff_eq, eq_comm]

end

theorem matchEpsilon_add : (P + Q).matchEpsilon = (P.matchEpsilon || Q.matchEpsilon) := rfl

theorem matchEpsilon_word {a : α} {u : List α} : (word (a :: u)).matchEpsilon = false := rfl

theorem matchEpsilon_oneOf {cs : List α} : (oneOf cs).matchEpsilon = false := by
  induction cs with
  | nil => rfl
  | cons b cs ih => exact ih

/-! ## The characters of a pattern -/

/-- Every character of the pattern is of the class `p`. -/
def allIn (p : α → Bool) : RegularExpression α → Bool
  | zero => true
  | epsilon => true
  | char a => p a
  | plus P Q => allIn p P && allIn p Q
  | comp P Q => allIn p P && allIn p Q
  | star P => allIn p P

theorem forall_mem_of_allIn (h : P.allIn p = true) (hw : w ∈ P.matches') : ∀ c ∈ w, p c = true := by
  induction P generalizing w with
  | zero => exact absurd hw (Language.notMem_zero _)
  | epsilon =>
      cases (Language.mem_one _).mp hw
      exact nofun
  | char a =>
      cases hw
      exact List.forall_mem_singleton.mpr h
  | plus P Q ihP ihQ =>
      rw [allIn, Bool.and_eq_true] at h
      cases mem_add.mp hw with
      | inl hP => exact ihP h.1 hP
      | inr hQ => exact ihQ h.2 hQ
  | comp P Q ihP ihQ =>
      rw [allIn, Bool.and_eq_true] at h
      obtain ⟨u, hu, v, hv, rfl⟩ := mem_mul.mp hw
      exact List.forall_mem_append.mpr ⟨ihP h.1 hu, ihQ h.2 hv⟩
  | star P ih =>
      obtain ⟨ws, rfl, hws⟩ := mem_star.mp hw
      intro c hc
      obtain ⟨v, hv, hcv⟩ := List.mem_flatten.mp hc
      exact ih h (hws v hv) c hcv

theorem allIn_oneOf {cs : List α} : (oneOf cs).allIn p = cs.all p := by
  induction cs with
  | nil => rfl
  | cons a cs ih =>
      rw [List.all_cons, ← ih]
      rfl

theorem allIn_word {u : List α} : (word u).allIn p = u.all p := by
  induction u with
  | nil => rfl
  | cons a u ih =>
      rw [List.all_cons, ← ih]
      rfl

theorem allIn_add : (P + Q).allIn p = (P.allIn p && Q.allIn p) := rfl

theorem allIn_mul : (P * Q).allIn p = (P.allIn p && Q.allIn p) := rfl

theorem allIn_star : P.star.allIn p = P.allIn p := rfl

theorem allIn_many1 : (many1 P).allIn p = P.allIn p := by
  rw [many1, allIn_mul, allIn_star, Bool.and_self]

end RegularExpression

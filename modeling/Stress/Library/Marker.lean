import Mathlib.Data.List.Infix

/-!
# Markers in a stream

A stream is read in pieces, and a reader waits for a piece with a marker of two symbols
in it.  A text is quiet if it has no marker and none can begin at its end, so that quiet
texts stay quiet when they are joined.

In a quiet text with the marker behind it, a piece from the front has the marker only if
it is the whole.  What a piece without the marker leaves is again such a text, or quiet.
-/

namespace Marker

variable {α : Type*} {a b : α} {s t p r : List α}

/-- The text has no marker and does not end with the first half of one. -/
structure Quiet (a b : α) (s : List α) : Prop where
  no_marker : ¬ [a, b] <:+: s
  no_half : s.getLast? ≠ some a

theorem Quiet.nil : Quiet a b [] where
  no_marker h := by
    have := h.length_le
    simp at this
  no_half := by simp

/-- Across the border of two texts there is a marker only if its halves meet there. -/
theorem infix_append (h : [a, b] <:+: s ++ t) :
    [a, b] <:+: s ∨ [a, b] <:+: t ∨ (s.getLast? = some a ∧ t.head? = some b) := by
  induction s with
  | nil => exact .inr (.inl h)
  | cons c s ih =>
      rw [List.cons_append, List.infix_cons_iff] at h
      cases h with
      | inl hstart =>
          rw [List.cons_prefix_cons] at hstart
          obtain ⟨rfl, hstart⟩ := hstart
          cases s with
          | nil =>
              cases t with
              | nil => simp at hstart
              | cons d t =>
                  rw [List.nil_append, List.cons_prefix_cons] at hstart
                  exact .inr (.inr ⟨rfl, by rw [hstart.1]; rfl⟩)
          | cons d s =>
              rw [List.cons_append, List.cons_prefix_cons] at hstart
              obtain ⟨rfl, _⟩ := hstart
              exact .inl ⟨[], s, rfl⟩
      | inr hinfix =>
          obtain hs | ht | ⟨hlast, hhead⟩ := ih hinfix
          · exact .inl (hs.trans (List.suffix_cons c s).isInfix)
          · exact .inr (.inl ht)
          · refine .inr (.inr ⟨?_, hhead⟩)
            cases s with
            | nil => cases hlast
            | cons d s => rw [List.getLast?_cons_cons]; exact hlast

theorem Quiet.append (hs : Quiet a b s) (ht : Quiet a b t) : Quiet a b (s ++ t) where
  no_marker h := by
    obtain h | h | ⟨h, _⟩ := infix_append h
    · exact hs.no_marker h
    · exact ht.no_marker h
    · exact hs.no_half h
  no_half h := by
    rw [List.getLast?_append] at h
    cases hlast : t.getLast? with
    | none =>
        rw [hlast] at h
        exact hs.no_half h
    | some d =>
        rw [hlast] at h
        exact ht.no_half (hlast.trans h)

/-- A text whose last symbol begins no marker is quiet when it has none. -/
theorem Quiet.concat {c : α} (h : ¬ [a, b] <:+: s) (hb : c ≠ b) (ha : c ≠ a) :
    Quiet a b (s ++ [c]) where
  no_marker hinfix := by
    obtain hs | ht | ⟨_, hhead⟩ := infix_append hinfix
    · exact h hs
    · have := ht.length_le
      simp at this
    · exact hb (Option.some.inj hhead)
  no_half hlast := by
    rw [List.getLast?_concat] at hlast
    exact ha (Option.some.inj hlast)

theorem Quiet.suffix (hs : Quiet a b s) (h : r <:+ s) : Quiet a b r where
  no_marker hr := hs.no_marker (hr.trans h.isInfix)
  no_half hlast := by
    obtain ⟨p, rfl⟩ := h
    refine hs.no_half ?_
    rw [List.getLast?_append, hlast]
    rfl

/-- A piece from the front that has the marker is the whole. -/
theorem Quiet.eq_of_marker (hs : Quiet a b s) (h : p ++ r = s ++ [a, b])
    (hp : [a, b] <:+: p) : p = s ++ [a, b] ∧ r = [] := by
  cases r using List.reverseRecOn with
  | nil => exact ⟨by rw [← h, List.append_nil], rfl⟩
  | append_singleton r d =>
      -- Without its last symbol the whole has no marker.
      have hcut : p ++ r = s ++ [a] := by
        have h' : (p ++ r) ++ [d] = (s ++ [a]) ++ [b] := by
          rw [List.append_assoc, h, List.append_assoc]
          rfl
        exact (List.append_inj' h' rfl).1
      have hinfix : [a, b] <:+: s ++ [a] := hcut ▸ hp.trans (List.prefix_append p r).isInfix
      obtain hinfix | hinfix | ⟨hlast, _⟩ := infix_append hinfix
      · exact absurd hinfix hs.no_marker
      · have := hinfix.length_le
        simp at this
      · exact absurd hlast hs.no_half

/-- A text with a marker has a first one. -/
theorem exists_first (h : [a, b] <:+: s) :
    ∃ u v, s = u ++ [a, b] ++ v ∧ ¬ [a, b] <:+: u ++ [a] := by
  induction s with
  | nil =>
      have := h.length_le
      simp at this
  | cons c s ih =>
      by_cases hstart : [a, b] <+: c :: s
      · obtain ⟨v, hv⟩ := hstart
        refine ⟨[], v, hv.symm, fun hinfix => ?_⟩
        have := hinfix.length_le
        simp at this
      · obtain hp | hs := List.infix_cons_iff.mp h
        · exact absurd hp hstart
        · obtain ⟨u, v, rfl, hfirst⟩ := ih hs
          refine ⟨c :: u, v, rfl, fun hinfix => ?_⟩
          rw [List.cons_append] at hinfix
          obtain hp | hinfix := List.infix_cons_iff.mp hinfix
          · refine hstart (hp.trans ?_)
            rw [List.cons_prefix_cons]
            refine ⟨rfl, ⟨b :: v, ?_⟩⟩
            simp
          · exact hfirst hinfix

/-- In front of the marker behind a quiet text there is no other. -/
theorem Quiet.first (hab : a ≠ b) (hs : Quiet a b s) : ¬ [a, b] <:+: s ++ [a] := by
  intro hinfix
  obtain h | h | ⟨_, h⟩ := infix_append hinfix
  · exact hs.no_marker h
  · have := h.length_le
    simp at this
  · exact hab (Option.some.inj h)

/-- The second half of a marker is quiet. -/
theorem Quiet.half (hab : a ≠ b) : Quiet a b [b] where
  no_marker h := by
    have := h.length_le
    simp at this
  no_half h := hab (Option.some.inj h).symm

/-- What a piece leaves: the end of the quiet text with the marker, the second half of
the marker, or nothing. -/
theorem Quiet.rest (hs : Quiet a b s) (h : p ++ r = s ++ [a, b]) :
    (∃ t, Quiet a b t ∧ r = t ++ [a, b]) ∨ (p = s ++ [a] ∧ r = [b]) ∨ r = [] := by
  obtain ⟨q, hsq, hr⟩ | ⟨q, hp, hr⟩ := List.append_eq_append_iff.mp h
  · exact .inl ⟨q, hs.suffix ⟨p, hsq.symm⟩, hr⟩
  · cases q with
    | nil => exact .inl ⟨[], .nil, hr.symm⟩
    | cons c q =>
        rw [List.cons_append, List.cons.injEq] at hr
        obtain ⟨rfl, hr⟩ := hr
        cases q with
        | nil => exact .inr (.inl ⟨hp, hr.symm⟩)
        | cons d q =>
            rw [List.cons_append, List.cons.injEq] at hr
            exact .inr (.inr (List.append_eq_nil_iff.mp hr.2.symm).2)

end Marker

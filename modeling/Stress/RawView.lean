import Stress.State

/-!
# The string view of raw bytes

`State::setRawValue` fills the string view by formatted extraction, one character for
each byte of the buffer.  An extraction skips white space, and one that finds nothing
leaves the character of the round before, or what the local variable held at first.

So the string view is the buffer exactly when nothing is skipped, or when everything is
skipped and the variable happens to hold what was (`raw_string_agree_iff`).
-/

/-! ## Formatted extraction -/

/-- A stream that holds only white space gives the same character over and over. -/
theorem extractChars_of_isSpace {s : Bytes} (h : ∀ d ∈ s, isSpace d = true) (n : Nat)
    (c : UInt8) : extractChars n s c = List.replicate n c := by
  have hempty : ∀ n, extractChars n [] c = List.replicate n c := by
    intro n
    induction n with
    | zero => rfl
    | succ n ih => rw [extractChars, List.dropWhile_nil, ih, List.replicate_succ]
  cases n with
  | zero => rfl
  | succ n =>
      rw [extractChars, List.dropWhile_eq_nil_iff.mpr h, hempty, List.replicate_succ]

/-- A stream with another character gives no white space. -/
theorem not_isSpace_of_mem_extractChars {s : Bytes} (hs : ∃ d ∈ s, isSpace d = false) {n : Nat}
    {c d : UInt8} (hd : d ∈ extractChars n s c) : isSpace d = false := by
  induction n generalizing s c with
  | zero => cases hd
  | succ n ih =>
      rw [extractChars] at hd
      cases hdrop : s.dropWhile isSpace with
      | nil =>
          obtain ⟨e, he, hspace⟩ := hs
          rw [List.dropWhile_eq_nil_iff.mp hdrop e he] at hspace
          cases hspace
      | cons e s' =>
          have hnot := List.head?_dropWhile_not isSpace s
          rw [hdrop] at hnot hd
          cases List.mem_cons.mp hd with
          | inl heq => exact heq ▸ hnot
          | inr hmem =>
              by_cases hrest : ∃ d ∈ s', isSpace d = false
              · exact ih hrest hmem
              · have hall : ∀ d ∈ s', isSpace d = true := by
                  intro d hd
                  by_contra hne
                  exact hrest ⟨d, hd, Bool.eq_false_iff.mpr hne⟩
                rw [extractChars_of_isSpace hall] at hmem
                rw [List.eq_of_mem_replicate hmem]
                exact hnot

/-- Nothing is skipped in a stream without white space. -/
theorem extractChars_eq_self {s : Bytes} (h : ∀ d ∈ s, isSpace d = false) (c : UInt8) :
    extractChars s.length s c = s := by
  induction s generalizing c with
  | nil => rfl
  | cons d s ih =>
      rw [List.forall_mem_cons] at h
      rw [List.length_cons, extractChars, List.dropWhile_cons, h.1]
      exact congrArg (d :: ·) (ih h.2 d)

theorem extractChars_eq_self_iff (s : Bytes) (c : UInt8) :
    extractChars s.length s c = s ↔ (∀ d ∈ s, isSpace d = false) ∨ ∀ d ∈ s, d = c := by
  constructor
  · intro h
    by_cases hs : ∃ d ∈ s, isSpace d = false
    · exact .inl fun d hd => not_isSpace_of_mem_extractChars hs (h.symm ▸ hd)
    · have hall : ∀ d ∈ s, isSpace d = true := by
        intro d hd
        by_contra hne
        exact hs ⟨d, hd, Bool.eq_false_iff.mpr hne⟩
      rw [extractChars_of_isSpace hall] at h
      exact .inr fun d hd => List.eq_of_mem_replicate (h.symm ▸ hd)
  · rintro (h | h)
    · exact extractChars_eq_self h c
    · by_cases hc : isSpace c = true
      · rw [extractChars_of_isSpace fun d hd => h d hd ▸ hc]
        exact (List.eq_replicate_of_mem h).symm
      · exact extractChars_eq_self (fun d hd => h d hd ▸ Bool.eq_false_iff.mpr hc) c

/-! ## The state -/

namespace Stress

/-- After `setRawValue(b, n)` for a buffer of `n` bytes the three views show the buffer. -/
def RawViewsAgree (uninit : UInt8) (b : Bytes) (s : State) : Prop :=
  let s' := s.update (StateData.setRawValue uninit b b.length)
  s'.data.raw.length = b.length ∧ s'.data.raw = b ∧ s'.getStringValue = b

/-- The views agree if and only if the buffer has no white space, or has only the byte
that the local variable of the loop happens to hold. -/
theorem raw_string_agree_iff (uninit : UInt8) (b : Bytes) (s : State) :
    RawViewsAgree uninit b s ↔ (∀ c ∈ b, isSpace c = false) ∨ ∀ c ∈ b, c = uninit := by
  have hraw : (s.update (StateData.setRawValue uninit b b.length)).data.raw = b := by
    rw [State.data_update, StateData.setRawValue, StateData.raw, List.take_length]
    rfl
  have hstring : (s.update (StateData.setRawValue uninit b b.length)).getStringValue =
      extractChars b.length b uninit := by
    rw [State.getStringValue, State.data_update, StateData.setRawValue, List.take_length]
  rw [RawViewsAgree, hraw, hstring, ← extractChars_eq_self_iff]
  exact ⟨fun h => h.2.2, fun h => ⟨rfl, rfl, h⟩⟩

/-- The blank of `a b` is skipped. -/
theorem string_view_skips_blank :
    ¬ ∀ (uninit : UInt8) (b : Bytes) (s : State), RawViewsAgree uninit b s := by
  intro hall
  have hview := (hall 0 (ascii "a b") (State.okState 0)).2.2
  cases hview

end Stress

import Mathlib.Data.List.Basic

/-!
# State-passing computations that can fault

A computation threads a state and either returns a value or stops with a fault.
Nothing here names a program.  Four ways of talking about computations are set
up, each with the rules for the monad operations.

*Runs.*  `bind_ok` and `pure_ok` take a successful run apart, so that a proof
about a run follows the steps of the computation.

*Values.*  `Yields Q f` says that every value `f` returns satisfies `Q`.

*Faults.*  `Avoids x f` says that `f` never stops with the fault `x`.

*Simulation.*  `Sim R Q f g` says that from states related by `R` the two
computations return values related by `Q` in related states, or stop with the
same fault.  `Sim.bind` composes it along sequencing.
-/

/-- A computation over the states `σ` with faults `ε`. -/
abbrev Comp (ε σ α : Type) := StateT σ (Except ε) α

namespace Comp

variable {ε σ τ α β γ δ : Type}

/-- Stop with a fault. -/
def fault (x : ε) : Comp ε σ α := fun _ => .error x

/-! ## Runs -/

theorem bind_eq (f : Comp ε σ α) (k : α → Comp ε σ β) (w : σ) :
    (f >>= k) w = match f w with
      | .error x => .error x
      | .ok (a, w') => k a w' := by
  change (f w >>= fun p => k p.1 p.2) = _
  cases f w with
  | error x => rfl
  | ok p => rfl

/-- A sequence succeeds exactly when both of its steps do. -/
theorem bind_ok {f : Comp ε σ α} {k : α → Comp ε σ β} {w w'' : σ} {b : β} :
    (f >>= k) w = .ok (b, w'') ↔ ∃ a w', f w = .ok (a, w') ∧ k a w' = .ok (b, w'') := by
  rw [bind_eq]
  cases h : f w with
  | error x => simp
  | ok p =>
      obtain ⟨a, w'⟩ := p
      simp

theorem pure_eq (a : α) (w : σ) : (pure a : Comp ε σ α) w = .ok (a, w) := rfl

theorem pure_ok {a b : α} {w w' : σ} :
    (pure a : Comp ε σ α) w = .ok (b, w') ↔ b = a ∧ w' = w := by
  rw [pure_eq]
  simp [eq_comm]

@[simp] theorem fault_eq (x : ε) (w : σ) : (fault x : Comp ε σ α) w = .error x := rfl

/-- Every value the computation returns satisfies `Q`. -/
def Yields (Q : α → Prop) (m : Comp ε σ α) : Prop := ∀ w a w', m w = .ok (a, w') → Q a

namespace Yields

variable {Q : α → Prop}

theorem of_ok {m : Comp ε σ α} {w w' : σ} {a : α} (hrun : m w = .ok (a, w')) (h : Yields Q m) :
    Q a := h w a w' hrun

theorem pure {a : α} (h : Q a) : Yields Q (Pure.pure a : Comp ε σ α) := by
  intro w b w' hrun
  rw [(pure_ok.mp hrun).1]
  exact h

theorem fault (x : ε) : Yields Q (Comp.fault x : Comp ε σ α) := by
  intro w a w' hrun
  cases hrun

theorem bind {m : Comp ε σ β} {k : β → Comp ε σ α} (h : ∀ b, Yields Q (k b)) :
    Yields Q (m >>= k) := by
  intro w a w' hrun
  obtain ⟨b, w₁, _, hk⟩ := bind_ok.mp hrun
  exact h b w₁ a w' hk

theorem ite {c : Prop} [Decidable c] {m m' : Comp ε σ α} (h : Yields Q m) (h' : Yields Q m') :
    Yields Q (if c then m else m') := by
  split
  · exact h
  · exact h'

end Yields

/-- The computation never stops with the fault `x`. -/
def Avoids (x : ε) (m : Comp ε σ α) : Prop := ∀ w, m w ≠ .error x

namespace Avoids

variable {x : ε}

theorem pure (a : α) : Avoids x (Pure.pure a : Comp ε σ α) := by
  intro w h
  cases h

theorem fault {y : ε} (h : y ≠ x) : Avoids x (Comp.fault y : Comp ε σ α) :=
  fun _ hrun => h (Except.error.inj hrun)

theorem bind {m : Comp ε σ β} {k : β → Comp ε σ α} (hm : Avoids x m)
    (hk : ∀ b, Avoids x (k b)) : Avoids x (m >>= k) := by
  intro w hrun
  rw [bind_eq] at hrun
  cases h : m w with
  | error y =>
      rw [h] at hrun
      exact hm w (h.trans (congrArg Except.error (Except.error.inj hrun)))
  | ok p =>
      rw [h] at hrun
      exact hk p.1 p.2 hrun

theorem ite {c : Prop} [Decidable c] {m m' : Comp ε σ α} (h : Avoids x m) (h' : Avoids x m') :
    Avoids x (if c then m else m') := by
  split
  · exact h
  · exact h'

end Avoids

/-! ## Simulation -/

/-- Two outcomes agree: related values in related states, or the same fault. -/
def Agree (R : σ → τ → Prop) (Q : α → β → Prop) :
    Except ε (α × σ) → Except ε (β × τ) → Prop
  | .ok (a, w), .ok (b, e) => Q a b ∧ R w e
  | .error x, .error y => x = y
  | _, _ => False

theorem Agree.imp {R R' : σ → τ → Prop} {Q Q' : α → β → Prop}
    {x : Except ε (α × σ)} {y : Except ε (β × τ)} (h : Agree R Q x y)
    (hQ : ∀ a b, Q a b → Q' a b) (hR : ∀ w e, R w e → R' w e) : Agree R' Q' x y := by
  cases x with
  | error _ =>
      cases y with
      | error _ => exact h
      | ok _ => exact h
  | ok _ =>
      cases y with
      | error _ => exact h
      | ok _ => exact ⟨hQ _ _ h.1, hR _ _ h.2⟩

/-- Agreement can be checked on images of the states. -/
theorem Agree.map_iff {f : σ → τ} {S : τ → τ → Prop} {Q : α → β → Prop}
    {x : Except ε (α × σ)} {x' : Except ε (α × τ)} {y : Except ε (β × σ)}
    {y' : Except ε (β × τ)} (hx : Agree (fun w e => f w = e) Eq x x')
    (hy : Agree (fun w e => f w = e) Eq y y') :
    Agree (fun w₁ w₂ => S (f w₁) (f w₂)) Q x y ↔ Agree S Q x' y' := by
  cases x with
  | error _ =>
      cases x' with
      | ok _ => exact hx.elim
      | error _ =>
          cases hx
          cases y with
          | error _ =>
              cases y' with
              | ok _ => exact hy.elim
              | error _ => cases hy; exact Iff.rfl
          | ok _ =>
              cases y' with
              | ok _ => exact Iff.rfl
              | error _ => exact hy.elim
  | ok p =>
      cases x' with
      | error _ => exact hx.elim
      | ok p' =>
          cases y with
          | error _ =>
              cases y' with
              | ok _ => exact hy.elim
              | error _ => exact Iff.rfl
          | ok q =>
              cases y' with
              | error _ => exact hy.elim
              | ok q' =>
                  have h₁ : p.1 = p'.1 ∧ f p.2 = p'.2 := hx
                  have h₂ : q.1 = q'.1 ∧ f q.2 = q'.2 := hy
                  change (Q p.1 q.1 ∧ S (f p.2) (f q.2)) ↔ (Q p'.1 q'.1 ∧ S p'.2 q'.2)
                  rw [h₁.1, h₁.2, h₂.1, h₂.2]

/-- From related states the two computations have agreeing outcomes. -/
def Sim (R : σ → τ → Prop) (Q : α → β → Prop) (f : Comp ε σ α) (g : Comp ε τ β) : Prop :=
  ∀ w e, R w e → Agree R Q (f w) (g e)

section Sim

variable {R : σ → τ → Prop} {Q : α → β → Prop} {Q' : γ → δ → Prop}

theorem Sim.pure {a : α} {b : β} (h : Q a b) :
    Sim R Q (pure a : Comp ε σ α) (pure b : Comp ε τ β) :=
  fun _ _ hR => ⟨h, hR⟩

theorem Sim.fault (x : ε) : Sim R Q (fault x : Comp ε σ α) (fault x : Comp ε τ β) :=
  fun _ _ _ => rfl

theorem Sim.bind {f : Comp ε σ α} {g : Comp ε τ β} {k : α → Comp ε σ γ} {l : β → Comp ε τ δ}
    (hf : Sim R Q f g) (hk : ∀ a b, Q a b → Sim R Q' (k a) (l b)) :
    Sim R Q' (f >>= k) (g >>= l) := by
  intro w e hR
  have h := hf w e hR
  rw [bind_eq, bind_eq]
  cases hw : f w with
  | error x =>
      cases he : g e with
      | error y => rw [hw, he] at h; exact h
      | ok p => rw [hw, he] at h; exact h.elim
  | ok p =>
      obtain ⟨a, w'⟩ := p
      cases he : g e with
      | error y => rw [hw, he] at h; exact h.elim
      | ok p' =>
          obtain ⟨b, e'⟩ := p'
          rw [hw, he] at h
          exact hk a b h.1 w' e' h.2

theorem Sim.bind_eq {f : Comp ε σ α} {g : Comp ε τ α} {k : α → Comp ε σ γ} {l : α → Comp ε τ δ}
    (hf : Sim R Eq f g) (hk : ∀ a, Sim R Q' (k a) (l a)) : Sim R Q' (f >>= k) (g >>= l) :=
  hf.bind fun a _ h => h ▸ hk a

/-- A successful run on the left has a successful run on the right. -/
theorem Sim.ok {f : Comp ε σ α} {g : Comp ε τ β} (hf : Sim R Q f g) {w w' : σ} {e : τ} {a : α}
    (hR : R w e) (h : f w = .ok (a, w')) : ∃ b e', g e = .ok (b, e') ∧ Q a b ∧ R w' e' := by
  have hs := hf w e hR
  cases he : g e with
  | error y => rw [h, he] at hs; exact hs.elim
  | ok p =>
      obtain ⟨b, e'⟩ := p
      rw [h, he] at hs
      exact ⟨b, e', rfl, hs⟩

/-- A successful run on the right has a successful run on the left. -/
theorem Sim.ok_right {f : Comp ε σ α} {g : Comp ε τ β} (hf : Sim R Q f g) {w : σ} {e e' : τ}
    {b : β} (hR : R w e) (h : g e = .ok (b, e')) :
    ∃ a w', f w = .ok (a, w') ∧ Q a b ∧ R w' e' := by
  have hs := hf w e hR
  cases hw : f w with
  | error y => rw [h, hw] at hs; exact hs.elim
  | ok p =>
      obtain ⟨a, w'⟩ := p
      rw [h, hw] at hs
      exact ⟨a, w', rfl, hs⟩

end Sim

end Comp

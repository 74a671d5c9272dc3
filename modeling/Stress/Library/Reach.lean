import Mathlib.Data.Fintype.Card
import Mathlib.Data.Finset.Lattice.Basic
import Mathlib.Logic.Relation

/-!
# Reachable cycles

A relation that leads from a point to finitely many others goes on forever from
there exactly when a cycle can be reached.  Accessibility is along the arrows:
`Acc` of the flipped relation says that every path from a point ends.
-/

namespace Reach

open Relation

variable {α : Type*} {r : α → α → Prop} {a b : α}

/-- No cycle can be reached from `a`. -/
def Acyclic (r : α → α → Prop) (a : α) : Prop :=
  ∀ b, ReflTransGen r a b → ¬ TransGen r b b

theorem acc_of_reach (h : Acc (flip r) a) (hab : ReflTransGen r a b) : Acc (flip r) b := by
  induction hab with
  | refl => exact h
  | tail _ hstep ih => exact ih.inv hstep

theorem not_transGen_of_acc (h : Acc (flip r) a) : ¬ TransGen r a a := by
  induction h with
  | intro a _ ih =>
      intro hcycle
      obtain ⟨b, hab, hba⟩ := TransGen.head'_iff.mp hcycle
      exact ih b hab (TransGen.tail' hba hab)

/-- Where finitely many points can be reached, every path ends if and only if no
cycle can be reached. -/
theorem acc_iff_acyclic (hfin : {b | ReflTransGen r a b}.Finite) :
    Acc (flip r) a ↔ Acyclic r a := by
  constructor
  · intro hacc b hab
    exact not_transGen_of_acc (acc_of_reach hacc hab)
  · intro hacyclic
    have : Finite {b | ReflTransGen r a b} := hfin
    let back : {b | ReflTransGen r a b} → {b | ReflTransGen r a b} → Prop :=
      fun x y => TransGen r y.1 x.1
    have : IsTrans _ back := ⟨fun x y z hxy hyz => TransGen.trans hyz hxy⟩
    have : Std.Irrefl back := ⟨fun x hx => hacyclic x.1 x.2 hx⟩
    have hwf : WellFounded back := Finite.wellFounded_of_trans_of_irrefl back
    have hall : ∀ x : {b | ReflTransGen r a b}, Acc (flip r) x.1 := by
      intro x
      induction x using hwf.induction with
      | _ x ih =>
          refine .intro _ fun b hb => ?_
          exact ih ⟨b, x.2.tail hb⟩ (TransGen.single hb)
    exact hall ⟨a, ReflTransGen.refl⟩

end Reach

import Stress.Library.Odometer
import Stress.Generator
import Stress.Composite

/-!
# The schedule of a campaign

A vector gives every `OrComposite` of a tree the alternative it selects.  A test
case fixes which components are not `0`: the injectors whose number its id
enables.  The test cases of a generator are told apart by these sets
(`inCase_unique`), and together they meet the vectors the generator is meant to
schedule (`scheduled_iff`): every vector for `ExpTSGenerator`, and those with at
most one component other than `0` for `SeqTSGenerator`.
-/

namespace Stress

/-- The injectors of a tree are numbered in some order. -/
structure Numbering (t : ParsedTree) (num : Nat → Nat) : Prop where
  nodup : (t.root.orNodes.map fun c => num c.id).Nodup
  lt : ∀ c ∈ t.root.orNodes, num c.id < t.root.orNodes.length

/-- Test case `u` enables the injector with number `j`. -/
def turns (g : TSGenerator) (u j : Nat) : Bool :=
  match g with
  | .exp => u.testBit j
  | .seq => u == j + 1

/-- The number of test cases for `k` injectors. -/
def numCases (g : TSGenerator) (k : Nat) : Nat :=
  match g with
  | .exp => 2 ^ k
  | .seq => k + 1

/-- The vectors a generator schedules. -/
def Scheduled (t : ParsedTree) (g : TSGenerator) (v : List Nat) : Prop :=
  List.Forall₂ (fun c x => x < c.sons.length) t.root.orNodes v ∧
  match g with
  | .exp => True
  | .seq => (v.filter (· ≠ 0)).length ≤ 1

/-- The vectors of one test case. -/
def InCase (t : ParsedTree) (g : TSGenerator) (num : Nat → Nat) (u : Nat) (v : List Nat) : Prop :=
  List.Forall₂ (fun c x => x < c.sons.length ∧ (x ≠ 0 ↔ turns g u (num c.id) = true))
    t.root.orNodes v

/-- The vectors of the test cases before `u`, each once. -/
def Covers (t : ParsedTree) (g : TSGenerator) (num : Nat → Nat) (u : Nat) (vs : List (List Nat)) :
    Prop :=
  vs.Nodup ∧ ∀ v, v ∈ vs ↔ ∃ u' < u, InCase t g num u' v

theorem turns_zero (g : TSGenerator) (j : Nat) : turns g 0 j = false := by
  cases g with
  | exp => exact Nat.zero_testBit j
  | seq => rfl

/-- The numbers of the test cases are the ids `main` counts through. -/
theorem nextInjectionId_eq_numCases (g : TSGenerator) {k : Nat} (hk : k ≤ 31) :
    (g.nextInjectionId k).toNat = numCases g k := by
  cases g with
  | exp => rw [TSGenerator.nextInjectionId_exp, min_eq_left (by omega)]; rfl
  | seq => rw [TSGenerator.nextInjectionId_seq, Nat.mod_eq_of_lt (by omega)]; rfl

theorem numCases_lt (g : TSGenerator) {k : Nat} (hk : k ≤ 31) : numCases g k < 2 ^ 32 := by
  cases g with
  | exp => exact Nat.pow_lt_pow_right (by omega) (by omega)
  | seq => change k + 1 < _; omega

theorem enable_eq_turns (g : TSGenerator) {u : UInt64} {j : Nat} (hu : u.toNat < 2 ^ 32)
    (hj : j < 31) : g.enable u (g.injectionId j) = turns g u.toNat j := by
  cases g with
  | exp => rw [TSGenerator.enable_exp, decide_eq_true (by omega), Bool.true_and]; rfl
  | seq => rw [TSGenerator.enable_seq _ _ hu (by omega)]; rfl

section Vectors

variable {t : ParsedTree} {g : TSGenerator} {num : Nat → Nat}

/-- A vector is a function of the nodes. -/
theorem forall₂_orNodes {R : Composite → Nat → Prop} {v : List Nat} :
    List.Forall₂ R t.root.orNodes v ↔
      ∃ f : Nat → Nat, v = t.root.orNodes.map (fun c => f c.id) ∧
        ∀ c ∈ t.root.orNodes, R c (f c.id) := by
  constructor
  · intro h
    have hlen : v.length = (t.root.orNodes.map Composite.id).length := by
      rw [List.length_map, h.length_eq]
    obtain ⟨f, rfl⟩ := Odometer.exists_map_eq t.orNodes_nodup hlen
    rw [List.map_map] at h
    exact ⟨f, List.map_map, List.forall₂_same.mp (List.forall₂_map_right_iff.mp h)⟩
  · rintro ⟨f, rfl, h⟩
    exact List.forall₂_map_right_iff.mpr (List.forall₂_same.mpr h)

theorem Numbering.eq_of_num_eq (h : Numbering t num) {c d : Composite}
    (hc : c ∈ t.root.orNodes) (hd : d ∈ t.root.orNodes) (he : num c.id = num d.id) : c = d :=
  List.inj_on_of_nodup_map h.nodup hc hd he

/-- Every number below the number of injectors is taken. -/
theorem Numbering.surjective (h : Numbering t num) {j : Nat} (hj : j < t.root.orNodes.length) :
    ∃ c ∈ t.root.orNodes, num c.id = j := by
  have hsub : t.root.orNodes.map (fun c => num c.id) ⊆ List.range t.root.orNodes.length := by
    intro i hi
    obtain ⟨c, hc, rfl⟩ := List.mem_map.mp hi
    exact List.mem_range.mpr (h.lt c hc)
  have hperm := (List.subperm_of_subset h.nodup hsub).perm_of_length_le (by simp)
  obtain ⟨c, hc, he⟩ := List.mem_map.mp (hperm.mem_iff.mpr (List.mem_range.mpr hj))
  exact ⟨c, hc, he⟩

/-- A vector belongs to one test case. -/
theorem inCase_unique (h : Numbering t num) {u u' : Nat} {v : List Nat}
    (hu : u < numCases g t.root.orNodes.length) (hu' : u' < numCases g t.root.orNodes.length)
    (hv : InCase t g num u v) (hv' : InCase t g num u' v) : u = u' := by
  obtain ⟨f, rfl, hf⟩ := forall₂_orNodes.mp hv
  have hturns : ∀ j < t.root.orNodes.length, turns g u j = turns g u' j := by
    intro j hj
    obtain ⟨c, hc, rfl⟩ := h.surjective hj
    have hc' := List.forall₂_same.mp (List.forall₂_map_right_iff.mp hv') c hc
    exact Bool.eq_iff_iff.mpr ((hf c hc).2.symm.trans hc'.2)
  cases g with
  | exp =>
      apply Nat.eq_of_testBit_eq
      intro j
      by_cases hj : j < t.root.orNodes.length
      · exact hturns j hj
      · have hpow : 2 ^ t.root.orNodes.length ≤ 2 ^ j :=
          Nat.pow_le_pow_right (by omega) (by omega)
        rw [Nat.testBit_lt_two_pow (hu.trans_le hpow), Nat.testBit_lt_two_pow (hu'.trans_le hpow)]
  | seq =>
      have hone : ∀ a b : Nat, (∀ j < t.root.orNodes.length, turns .seq a j = turns .seq b j) →
          a < t.root.orNodes.length + 1 → a ≠ 0 → a = b := by
        intro a b hab ha hne
        have := Bool.eq_iff_iff.mp (hab (a - 1) (by omega))
        simp only [turns, beq_iff_eq] at this
        omega
      by_cases h0 : u = 0
      · by_cases h0' : u' = 0
        · rw [h0, h0']
        · exact (hone u' u (fun j hj => (hturns j hj).symm) hu' h0').symm
      · exact hone u u' hturns hu h0

theorem filter_length_le_one {α : Type} {l : List α} (hl : l.Nodup) (p : α → Bool) :
    (l.filter p).length ≤ 1 ↔ ∀ a ∈ l, ∀ b ∈ l, p a = true → p b = true → a = b := by
  constructor
  · intro hlen a ha b hb hpa hpb
    have hma : a ∈ l.filter p := List.mem_filter.mpr ⟨ha, hpa⟩
    have hmb : b ∈ l.filter p := List.mem_filter.mpr ⟨hb, hpb⟩
    match hf : l.filter p, hlen with
    | [], _ => rw [hf] at hma; cases hma
    | [x], _ =>
        rw [hf] at hma hmb
        rw [List.mem_singleton.mp hma, List.mem_singleton.mp hmb]
  · intro heq
    have hnd := hl.filter p
    match hf : l.filter p with
    | [] => exact Nat.zero_le 1
    | [x] => exact le_refl 1
    | x :: y :: rest =>
        have hx : x ∈ l.filter p := by rw [hf]; simp
        have hy : y ∈ l.filter p := by rw [hf]; simp
        obtain ⟨hxl, hpx⟩ := List.mem_filter.mp hx
        obtain ⟨hyl, hpy⟩ := List.mem_filter.mp hy
        rw [hf, heq x hxl y hyl hpx hpy] at hnd
        simp at hnd

/-- The test cases of a generator meet exactly the vectors it schedules. -/
theorem scheduled_iff (h : Numbering t num) (v : List Nat) :
    (∃ u < numCases g t.root.orNodes.length, InCase t g num u v) ↔ Scheduled t g v := by
  constructor
  · rintro ⟨u, _, hv⟩
    obtain ⟨f, rfl, hf⟩ := forall₂_orNodes.mp hv
    refine ⟨forall₂_orNodes.mpr ⟨f, rfl, fun c hc => (hf c hc).1⟩, ?_⟩
    cases g with
    | exp => trivial
    | seq =>
        rw [List.filter_map, List.length_map,
          filter_length_le_one (List.Nodup.of_map _ t.orNodes_nodup)]
        intro c hc d hd hpc hpd
        simp only [Function.comp_apply, ne_eq, decide_not, Bool.not_eq_eq_eq_not, Bool.not_true,
          decide_eq_false_iff_not] at hpc hpd
        have hcu := (hf c hc).2.mp hpc
        have hdu := (hf d hd).2.mp hpd
        simp only [turns, beq_iff_eq] at hcu hdu
        exact h.eq_of_num_eq hc hd (by omega)
  · rintro ⟨hv, hg⟩
    obtain ⟨f, rfl, hf⟩ := forall₂_orNodes.mp hv
    cases g with
    | exp =>
        let b : Nat → Bool := fun j => t.root.orNodes.any fun c => num c.id == j && f c.id != 0
        have hb : ∀ c ∈ t.root.orNodes, (b (num c.id) = true ↔ f c.id ≠ 0) := by
          intro c hc
          simp only [b, List.any_eq_true, Bool.and_eq_true, beq_iff_eq, bne_iff_ne]
          constructor
          · rintro ⟨d, hd, he, hne⟩
            rwa [h.eq_of_num_eq hd hc he] at hne
          · intro hne
            exact ⟨c, hc, rfl, hne⟩
        refine ⟨Nat.ofBits fun i : Fin t.root.orNodes.length => b i, Nat.ofBits_lt_two_pow _, ?_⟩
        refine forall₂_orNodes.mpr ⟨f, rfl, fun c hc => ⟨hf c hc, ?_⟩⟩
        rw [turns, Nat.testBit_ofBits_lt _ _ (h.lt c hc)]
        exact (hb c hc).symm
    | seq =>
        rw [List.filter_map, List.length_map,
          filter_length_le_one (List.Nodup.of_map _ t.orNodes_nodup)] at hg
        by_cases hall : ∀ c ∈ t.root.orNodes, f c.id = 0
        · refine ⟨0, Nat.succ_pos _, forall₂_orNodes.mpr ⟨f, rfl, fun c hc => ⟨hf c hc, ?_⟩⟩⟩
          rw [turns_zero, hall c hc]
          simp
        · obtain ⟨c, hc, hne⟩ : ∃ c ∈ t.root.orNodes, f c.id ≠ 0 := by
            by_contra hno
            exact hall fun c hc => by
              by_contra hne
              exact hno ⟨c, hc, hne⟩
          refine ⟨num c.id + 1, Nat.succ_lt_succ (h.lt c hc),
            forall₂_orNodes.mpr ⟨f, rfl, fun d hd => ⟨hf d hd, ?_⟩⟩⟩
          simp only [turns, beq_iff_eq, Nat.add_right_cancel_iff]
          constructor
          · intro hned
            rw [hg c hc d hd (by simpa using hne) (by simpa using hned)]
          · intro he
            rwa [← h.eq_of_num_eq hc hd he]

/-- The test case `u` comes after those before it. -/
theorem Covers.append (h : Numbering t num) {u : Nat} {vs block : List (List Nat)}
    (hu : u < numCases g t.root.orNodes.length) (hvs : Covers t g num u vs) (hnd : block.Nodup)
    (hblock : ∀ v, v ∈ block ↔ InCase t g num u v) : Covers t g num (u + 1) (vs ++ block) := by
  obtain ⟨hvsnd, hmem⟩ := hvs
  constructor
  · refine List.nodup_append.mpr ⟨hvsnd, hnd, ?_⟩
    intro v hv v' hv' he
    subst he
    obtain ⟨u', hlt, hcase⟩ := (hmem v).mp hv
    have := inCase_unique h (hlt.trans hu) hu hcase ((hblock v).mp hv')
    omega
  · intro v
    rw [List.mem_append, hmem, hblock]
    constructor
    · rintro (⟨u', hlt, hcase⟩ | hcase)
      · exact ⟨u', by omega, hcase⟩
      · exact ⟨u, by omega, hcase⟩
    · rintro ⟨u', hlt, hcase⟩
      by_cases he : u' = u
      · exact .inr (he ▸ hcase)
      · exact .inl ⟨u', by omega, hcase⟩

theorem covers_zero : Covers t g num 0 [] :=
  ⟨List.nodup_nil, fun v => by simp⟩

end Vectors

end Stress

import Stress.Injection
import Stress.Views

/-!
# The tree behind an injection

`inject` deletes every leaf it hands to the injector.  The tree then has a copy in its
place, or an alternation that starts with a copy, and a node with a fresh id in any case.
A string leaf without text is the exception, since `createFaults` returns the leaf itself.

`Grafted` relates the two trees.  If the new alternations select their first sons, the
anomalies are evaluated and thrown away, and the copy of the leaf sends what the leaf
has sent.
-/

namespace Stress

/-- Leaves of a tree are copied, or replaced by alternations with anomalies, under ids
from `n` on. -/
inductive Grafted (n : Nat) : Composite → Composite → Prop where
  | leaf (kind : LeafKind) (id : Nat) (name : Bytes) :
      Grafted n (.leaf kind id name) (.leaf kind id name)
  | copy (kind : LeafKind) (id : Nat) (name : Bytes) {id' : Nat} (hid : n ≤ id') :
      Grafted n (.leaf kind id name) (.leaf kind id' name)
  | faults (id : Nat) (name : Bytes) {text : Bytes} (hne : text ≠ [])
      (anomalyCounter orCounter : Nat) (rand : Nat → Nat → Nat) {nextId : Nat} (hid : n ≤ nextId) :
      Grafted n (.leaf .stringLeaf id name) (makeNode (InjectorPerformer.createFaults
        anomalyCounter text orCounter rand name) nextId).1
  | node (kind : NodeKind) (id : Nat) (name : Bytes) {sons sons' : List Composite}
      (h : List.Forall₂ (Grafted n) sons sons') :
      Grafted n (.node kind id name sons) (.node kind id name sons')

namespace Grafted

variable {n : Nat}

theorem refl (c : Composite) : Grafted n c c := by
  induction c using Composite.induction with
  | h c ih =>
      cases c with
      | leaf kind id name => exact .leaf kind id name
      | node kind id name sons => exact .node kind id name (List.forall₂_same.mpr ih)

end Grafted

/-! ## New nodes -/

theorem shape_makeNode (t : Tree) (nextId : Nat) : (makeNode t nextId).1.shape = t := by
  refine @Tree.rec (fun t => ∀ n, (makeNode t n).1.shape = t)
    (fun ts => ∀ n, Composite.shapes (makeSons ts n).1 = ts) ?_ ?_ ?_ ?_ t nextId
  · exact fun _ _ _ => rfl
  · intro kind name ts ih n
    rw [makeNode, Composite.shape, ih]
  · exact fun _ => rfl
  · intro t ts iht ihts n
    rw [makeSons, Composite.shapes, iht, ihts]

theorem shapes_makeSons (ts : List Tree) (nextId : Nat) :
    (makeSons ts nextId).1.map Composite.shape = ts := by
  induction ts generalizing nextId with
  | nil => rfl
  | cons t ts ih => rw [makeSons, List.map_cons, shape_makeNode, ih]

/-- New nodes have new ids. -/
theorem le_id_makeNode (t : Tree) (nextId : Nat) :
    ∀ d ∈ (makeNode t nextId).1.nodes, nextId ≤ d.id := by
  refine @Tree.rec (fun t => ∀ n, ∀ d ∈ (makeNode t n).1.nodes, n ≤ d.id)
    (fun ts => ∀ n, ∀ d ∈ Composite.nodesOf (makeSons ts n).1, n ≤ d.id) ?_ ?_ ?_ ?_ t nextId
  · intro kind name n d hd
    rw [List.mem_singleton.mp hd]
    exact Nat.le_refl n
  · intro kind name ts ih n d hd
    cases List.mem_cons.mp hd with
    | inl he =>
        rw [he]
        exact Nat.le_refl n
    | inr hd => exact Nat.le_of_succ_le (ih (n + 1) d hd)
  · nofun
  · intro t ts iht ihts n d hd
    cases List.mem_append.mp hd with
    | inl hd => exact iht n d hd
    | inr hd => exact Nat.le_trans (Nat.le_of_lt (AnomalyInjector.lt_makeNode t n)) (ihts _ d hd)

/-! ## The trees before and after -/

namespace AnomalyInjector

variable {w : World} {rand : Nat → Nat → Nat → Nat} {n : Nat}

/-- What `createFaults` and the copies make of a leaf. -/
theorem grafted_leaf {kind : LeafKind} {id : Nat} {name : Bytes} {c : Composite}
    {st st' : Injection} (hle : n ≤ st.nextId)
    (h : injectLeaf rand kind id name st = some (c, st')) :
    Grafted n (.leaf kind id name) c ∧
      (n ≤ c.id ∨ kind = .stringLeaf ∧ trim name = some [] ∧ c = .leaf kind id name) := by
  cases kind with
  | stringLeaf =>
      rw [injectLeaf] at h
      split at h
      · cases h
      · next htrim =>
          cases h
          exact ⟨.leaf _ id name, .inr ⟨rfl, htrim, rfl⟩⟩
      · next hne htrim =>
          cases h
          exact ⟨.faults id name hne _ _ _ hle, .inl hle⟩
  | hexLeaf => cases h; exact ⟨.copy _ id name hle, .inl hle⟩
  | decLeaf => cases h; exact ⟨.copy _ id name hle, .inl hle⟩
  | binLeaf => cases h; exact ⟨.copy _ id name hle, .inl hle⟩
  | commandComposite => cases h; exact ⟨.copy _ id name hle, .inl hle⟩

theorem forall₂_injectSons {datasons : List Nat} {cs : List Composite}
    (hson : ∀ d ∈ cs, ∀ d', InjectedTo w rand n d d' → Grafted n d d') {k : Nat}
    {cs' : List Composite} {st st' : Injection} (hle : n ≤ st.nextId)
    (h : injectSons w rand datasons k cs st = some (cs', st')) :
    List.Forall₂ (Grafted n) cs cs' := by
  induction cs generalizing k cs' st st' with
  | nil =>
      cases h
      exact .nil
  | cons c cs ih =>
      obtain ⟨hc, hcs⟩ := List.forall_mem_cons.mp hson
      rw [injectSons] at h
      obtain ⟨⟨c', st₁⟩, hhead, h⟩ := Option.bind_eq_some_iff.mp h
      obtain ⟨⟨ds, st₂⟩, hds, h⟩ := Option.map_eq_some_iff.mp h
      cases h
      split at hhead
      · exact .cons (hc c' ⟨st, st₁, hle, hhead⟩)
          (ih hcs (Nat.le_trans hle (le_inject hhead)) hds)
      · cases hhead
        exact .cons (.refl c) (ih hcs hle hds)

theorem InjectedTo.grafted {c c' : Composite} (h : InjectedTo w rand n c c') : Grafted n c c' := by
  induction c using Composite.induction generalizing c' with
  | h c ih =>
      obtain ⟨st, st', hle, h⟩ := h
      cases c with
      | leaf => exact (grafted_leaf hle h).1
      | node kind id name sons =>
          rw [inject] at h
          split at h
          · obtain ⟨⟨sons', st₁⟩, hsons, h⟩ := Option.map_eq_some_iff.mp h
            cases h
            exact .node kind id name (forall₂_injectSons (fun d hd _ => ih d hd) hle hsons)
          · cases h

theorem grafted_attach {branches : List Composite} {c : Composite}
    (h : ∀ b ∈ branches, ∀ d ∈ c.nodes, d.id = b.id → Grafted n d b) :
    Grafted n c (attach branches c) := by
  induction c using Composite.induction with
  | h c ih =>
      cases c with
      | leaf kind id name => exact .leaf kind id name
      | node kind id name sons =>
          rw [attach]
          cases hbranch : branchOf branches id with
          | some b =>
              have hfind : branches.find? (fun b => b.id == id) = some b := hbranch
              have hbid := List.find?_some hfind
              exact h b (List.mem_of_find?_eq_some hfind) _ (Composite.mem_nodes_self _)
                (beq_iff_eq.mp hbid).symm
          | none =>
              refine .node kind id name ?_
              have hson : ∀ d ∈ sons, Grafted n d (attach branches d) := fun d hd =>
                ih d hd fun b hb e he => h b hb e (Composite.nodes_trans
                  (Composite.son_mem_nodes (c := .node kind id name sons) hd) he)
              clear ih h
              induction sons with
              | nil => exact .nil
              | cons d ds ihds =>
                  exact .cons (hson d List.mem_cons_self)
                    (ihds fun e he => hson e (List.mem_cons_of_mem _ he))

variable {t : ParsedTree} {g : TSGenerator}

theorem Branches.grafted {returned : Nat → Bool} {branches : List Composite}
    (h : Branches t g rand returned n branches) :
    Grafted n t.root (attach branches t.root) := by
  refine grafted_attach fun b hb d hd he => ?_
  obtain ⟨s, hs, hid, hinjected⟩ := h.injected b hb
  rw [t.eq_of_id_eq hd (Composite.sendsBelow_subset (mem_of_mem_processed hs)) (he.trans hid.symm)]
  exact hinjected.grafted

end AnomalyInjector

/-! ## Paths and ids -/

namespace Composite

theorem exists_nodeAt {c d : Composite} (hd : d ∈ c.nodes) : ∃ p, c.nodeAt p = some d := by
  induction c using Composite.induction with
  | h c ih =>
      rw [nodes_eq] at hd
      cases List.mem_cons.mp hd with
      | inl he => exact ⟨[], by rw [he]; rfl⟩
      | inr hm =>
          obtain ⟨e, he, hd⟩ := List.mem_flatMap.mp hm
          obtain ⟨k, hk⟩ := List.mem_iff_getElem?.mp he
          obtain ⟨p, hp⟩ := ih e he hd
          exact ⟨k :: p, by rw [nodeAt, hk]; exact hp⟩

theorem Distinct.place_eq {c d e : Composite} (h : c.Distinct) {j k : Nat}
    (hd : c.sons[j]? = some d) (he : c.sons[k]? = some e) {i : Nat} (hid : i ∈ d.nodes.map id)
    (hie : i ∈ e.nodes.map id) : j = k := by
  rw [Distinct, nodes_eq, List.map_cons, List.nodup_cons, List.map_flatMap,
    List.nodup_flatMap] at h
  have hpairs := List.pairwise_iff_getElem.mp h.2.2
  obtain ⟨hj, rfl⟩ := List.getElem?_eq_some_iff.mp hd
  obtain ⟨hk, rfl⟩ := List.getElem?_eq_some_iff.mp he
  rcases Nat.lt_trichotomy j k with hlt | heq | hgt
  · exact absurd hie (hpairs j k hj hk hlt hid)
  · exact heq
  · exact absurd hid (hpairs k j hk hj hgt hie)

/-- One path leads to a node. -/
theorem Distinct.path_eq {c d e : Composite} (h : c.Distinct) {p q : List Nat}
    (hd : c.nodeAt p = some d) (he : c.nodeAt q = some e) (hid : d.id = e.id) : p = q := by
  induction p generalizing c q with
  | nil =>
      cases hd
      cases q with
      | nil => rfl
      | cons k q =>
          obtain ⟨s, hs, he⟩ := Option.bind_eq_some_iff.mp he
          refine absurd ?_ (h.root_notMem (List.mem_of_getElem? hs))
          rw [hid]
          exact List.mem_map_of_mem (mem_nodes_of_nodeAt he)
  | cons j p ih =>
      obtain ⟨s, hs, hd⟩ := Option.bind_eq_some_iff.mp hd
      have hmem := List.mem_map_of_mem (f := id) (mem_nodes_of_nodeAt hd)
      cases q with
      | nil =>
          cases he
          exact absurd (hid ▸ hmem) (h.root_notMem (List.mem_of_getElem? hs))
      | cons k q =>
          obtain ⟨s', hs', he⟩ := Option.bind_eq_some_iff.mp he
          have hmem' := List.mem_map_of_mem (f := id) (mem_nodes_of_nodeAt he)
          obtain rfl := h.place_eq hs hs' hmem (hid ▸ hmem')
          rw [hs] at hs'
          cases hs'
          rw [ih (h.son (List.mem_of_getElem? hs)) hd he]

end Composite

namespace Grafted

variable {n : Nat}

theorem getElem? {cs cs' : List Composite} (h : List.Forall₂ (Grafted n) cs cs') {k : Nat}
    {c' : Composite} (hc' : cs'[k]? = some c') : ∃ c, cs[k]? = some c ∧ Grafted n c c' := by
  induction h generalizing k with
  | nil => cases hc'
  | @cons d d' ds ds' hd _ ih =>
      cases k with
      | zero =>
          cases hc'
          exact ⟨d, rfl, hd⟩
      | succ k => exact ih hc'

/-- A node with an old id is where it was.  By induction on the path. -/
theorem nodeAt {c c' : Composite} (h : Grafted n c c') {p : List Nat} {e : Composite}
    (he : c'.nodeAt p = some e) (hold : e.id < n) :
    ∃ d, c.nodeAt p = some d ∧ d.id = e.id := by
  induction p generalizing c c' with
  | nil =>
      cases he
      cases h with
      | leaf kind id name => exact ⟨_, rfl, rfl⟩
      | copy kind id name hid => exact absurd hold (Nat.not_lt.mpr hid)
      | faults id name hne k orCounter rand hid => exact absurd hold (Nat.not_lt.mpr hid)
      | node kind id name hsons => exact ⟨_, rfl, rfl⟩
  | cons k p ih =>
      obtain ⟨d', hd', he'⟩ := Option.bind_eq_some_iff.mp he
      cases h with
      | leaf => cases hd'
      | copy => cases hd'
      | faults id name hne anomalyCounter orCounter rand hid =>
          have hnew := le_id_makeNode _ _ e (Composite.mem_nodes_of_nodeAt he)
          exact absurd hold (Nat.not_lt.mpr (Nat.le_trans hid hnew))
      | node kind id name hsons =>
          obtain ⟨d, hd, hgrafted⟩ := getElem? hsons hd'
          obtain ⟨e₀, he₀, hid⟩ := ih hgrafted he'
          refine ⟨e₀, ?_, hid⟩
          rw [Composite.nodeAt, Composite.sons, hd]
          exact he₀

end Grafted

/-! ## Deleted leaves -/

namespace AnomalyInjector

variable {w : World} {rand : Nat → Nat → Nat → Nat}

/-- The id of a leaf that `inject` comes to. -/
def Handed (w : World) (c : Composite) (i : Nat) : Prop :=
  ∃ p kind name, c.nodeAt p = some (.leaf kind i name) ∧ w.Goes c p

theorem handed_node {kind : NodeKind} {id : Nat} {name : Bytes} {sons : List Composite} {i : Nat} :
    Handed w (.node kind id name sons) i ↔
      ∃ k d, sons[k]? = some d ∧ k ∈ w.getDataSons id sons.length ∧ Handed w d i := by
  constructor
  · rintro ⟨p, leafKind, leafName, hleaf, hgoes⟩
    cases p with
    | nil => cases hleaf
    | cons k p =>
        obtain ⟨hk, d, hd, hgoes⟩ := hgoes
        rw [Composite.nodeAt, hd] at hleaf
        exact ⟨k, d, hd, hk, p, leafKind, leafName, hleaf, hgoes⟩
  · rintro ⟨k, d, hd, hk, p, leafKind, leafName, hleaf, hgoes⟩
    refine ⟨k :: p, leafKind, leafName, ?_, hk, d, hd, hgoes⟩
    rw [Composite.nodeAt, Composite.sons, hd]
    exact hleaf

theorem deleted_injectLeaf {kind : LeafKind} {id : Nat} {name : Bytes} {c : Composite}
    {st st' : Injection} (h : injectLeaf rand kind id name st = some (c, st')) :
    st'.deleted = id :: st.deleted := by
  cases kind with
  | stringLeaf =>
      rw [injectLeaf] at h
      split at h
      · cases h
      · cases h
        rfl
      · cases h
        rfl
  | hexLeaf => cases h; rfl
  | decLeaf => cases h; rfl
  | binLeaf => cases h; rfl
  | commandComposite => cases h; rfl

theorem deleted_injectSons {i : Nat} {datasons : List Nat} {cs : List Composite}
    (hson : ∀ d ∈ cs, ∀ {d' : Composite} {st st' : Injection},
      inject w rand d st = some (d', st') → (i ∈ st'.deleted ↔ i ∈ st.deleted ∨ Handed w d i))
    {k : Nat} {cs' : List Composite} {st st' : Injection}
    (h : injectSons w rand datasons k cs st = some (cs', st')) :
    i ∈ st'.deleted ↔ i ∈ st.deleted ∨
      ∃ j d, cs[j]? = some d ∧ k + j ∈ datasons ∧ Handed w d i := by
  induction cs generalizing k cs' st st' with
  | nil =>
      cases h
      exact ⟨.inl, fun h => h.resolve_right nofun⟩
  | cons c cs ih =>
      obtain ⟨hc, hcs⟩ := List.forall_mem_cons.mp hson
      rw [injectSons] at h
      obtain ⟨⟨c', st₁⟩, hhead, h⟩ := Option.bind_eq_some_iff.mp h
      obtain ⟨⟨ds, st₂⟩, hds, h⟩ := Option.map_eq_some_iff.mp h
      cases h
      have hfirst : i ∈ st₁.deleted ↔ i ∈ st.deleted ∨ k ∈ datasons ∧ Handed w c i := by
        split at hhead
        · next hmem => rw [hc hhead, and_iff_right hmem]
        · next hmem =>
            cases hhead
            exact ⟨.inl, fun h => h.resolve_right fun hk => hmem hk.1⟩
      have hsplit : (∃ j d, (c :: cs)[j]? = some d ∧ k + j ∈ datasons ∧ Handed w d i) ↔
          k ∈ datasons ∧ Handed w c i ∨
            ∃ j d, cs[j]? = some d ∧ k + 1 + j ∈ datasons ∧ Handed w d i := by
        constructor
        · rintro ⟨j, d, hd, hj, hh⟩
          cases j with
          | zero =>
              cases hd
              exact .inl ⟨hj, hh⟩
          | succ j => exact .inr ⟨j, d, hd, by rwa [Nat.add_right_comm], hh⟩
        · rintro (⟨hk, hh⟩ | ⟨j, d, hd, hj, hh⟩)
          · exact ⟨0, c, rfl, hk, hh⟩
          · exact ⟨j + 1, d, hd, by rwa [Nat.add_right_comm] at hj, hh⟩
      rw [ih hcs hds, hfirst, hsplit, or_assoc]

/-- The leaves `inject` comes to are deleted, and no others. -/
theorem deleted_inject {i : Nat} {c c' : Composite} {st st' : Injection}
    (h : inject w rand c st = some (c', st')) :
    i ∈ st'.deleted ↔ i ∈ st.deleted ∨ Handed w c i := by
  induction c using Composite.induction generalizing c' st st' with
  | h c ih =>
      cases c with
      | leaf kind id name =>
          rw [deleted_injectLeaf h, List.mem_cons, or_comm]
          refine or_congr_right ⟨?_, ?_⟩
          · rintro rfl
            exact ⟨[], kind, name, rfl, trivial⟩
          · rintro ⟨p, leafKind, leafName, hleaf, _⟩
            cases p with
            | nil =>
                cases hleaf
                rfl
            | cons => cases hleaf
      | node kind id name sons =>
          rw [inject] at h
          split at h
          · obtain ⟨⟨sons', st₁⟩, hsons, h⟩ := Option.map_eq_some_iff.mp h
            cases h
            rw [deleted_injectSons (fun d hd _ _ _ => ih d hd) hsons, handed_node]
            simp only [Nat.zero_add]
            exact Iff.rfl
          · cases h

theorem deleted_injectSends {i : Nat} {returned : Nat → Bool} {k : Nat} {cs bs : List Composite}
    {st st' : Injection} (h : injectSends w rand returned k cs st = some (bs, st')) :
    i ∈ st'.deleted ↔ i ∈ st.deleted ∨
      ∃ s ∈ Composite.processed returned k cs, Handed w s i := by
  induction cs generalizing k bs st st' with
  | nil =>
      cases h
      refine ⟨.inl, fun h => h.resolve_right ?_⟩
      rintro ⟨_, hs, _⟩
      cases hs
  | cons c cs ih =>
      rw [injectSends] at h
      obtain ⟨⟨b, st₁⟩, hb, h⟩ := Option.bind_eq_some_iff.mp h
      rw [Composite.processed, List.exists_mem_cons_iff, ← or_assoc, ← deleted_inject hb]
      split at h
      · next hreturned =>
          obtain ⟨⟨ds, st₂⟩, hds, h⟩ := Option.map_eq_some_iff.mp h
          cases h
          rw [if_pos hreturned]
          exact ih hds
      · next hreturned =>
          cases h
          rw [if_neg hreturned]
          refine ⟨.inl, fun h => h.resolve_right ?_⟩
          rintro ⟨_, hs, _⟩
          cases hs

section

variable {t : ParsedTree} {g : TSGenerator} {returned : Nat → Bool} {branches : List Composite}
  {n : Nat}

/-- The leaves that are reached are deleted, and no others. -/
theorem deleted_iff_reached {st st' : Injection}
    (h : injectSends (searched t g).2 rand returned 0 t.root.sendsBelow st = some (branches, st'))
    (i : Nat) : i ∈ st'.deleted ↔ i ∈ st.deleted ∨ ∃ p kind name,
      t.root.nodeAt p = some (.leaf kind i name) ∧ t.root.Reached returned p := by
  rw [deleted_injectSends h]
  refine or_congr_right ⟨?_, ?_⟩
  · rintro ⟨s, hs, r, kind, name, hleaf, hgoes⟩
    obtain ⟨p, hp⟩ := exists_sendOn (mem_of_mem_processed hs) r
    refine ⟨p, kind, name, (sendOn_eq_some hp).2.trans hleaf, s, r, hp, hs, ?_⟩
    exact (goes_iff_passes (mem_of_mem_processed hs) hleaf).mp hgoes
  · rintro ⟨p, kind, name, hleaf, s, r, hp, hs, hpasses⟩
    rw [(sendOn_eq_some hp).2] at hleaf
    exact ⟨s, hs, r, kind, name, hleaf, (goes_iff_passes (mem_of_mem_processed hs) hleaf).mpr
      hpasses⟩

/-- A deleted node is in the tree if and only if a string leaf without text is reached. -/
theorem dangling_iff {st st' : Injection} (hids : ∀ c ∈ t.root.nodes, c.id < st.nextId)
    (hst : st.deleted = [])
    (h : injectSends (searched t g).2 rand returned 0 t.root.sendsBelow st =
      some (branches, st')) :
    (∃ i ∈ st'.deleted, i ∈ (attach branches t.root).nodes.map Composite.id) ↔
      ∃ p id name, t.root.nodeAt p = some (.leaf .stringLeaf id name) ∧
        t.root.Reached returned p ∧ trim name = some [] := by
  have hbranches := injectSends_branches (Nat.le_refl st.nextId) h
  constructor
  · rintro ⟨i, hdeleted, hmem⟩
    have hnone : i ∉ st.deleted := by
      rw [hst]
      exact List.not_mem_nil
    obtain ⟨p, kind, name, hleaf, hreached⟩ :=
      ((deleted_iff_reached h i).mp hdeleted).resolve_left hnone
    obtain ⟨e, he, rfl⟩ := List.mem_map.mp hmem
    obtain ⟨q, hq⟩ := Composite.exists_nodeAt he
    have hold : e.id < st.nextId :=
      hids (.leaf kind e.id name) (Composite.mem_nodes_of_nodeAt hleaf)
    obtain ⟨d, hd, hid⟩ := hbranches.grafted.nodeAt hq hold
    obtain rfl := t.distinct.path_eq hleaf hd hid.symm
    obtain ⟨d', ⟨st₁, st₂, hle, hinject⟩, hat⟩ := (hbranches.leafAt hleaf).1 hreached
    rw [hq] at hat
    cases hat
    obtain hnew | ⟨rfl, htrim, _⟩ := (grafted_leaf hle hinject).2
    · exact absurd hold (Nat.not_lt.mpr hnew)
    · exact ⟨p, e.id, name, hleaf, hreached, htrim⟩
  · rintro ⟨p, id, name, hleaf, hreached, htrim⟩
    refine ⟨id, (deleted_iff_reached h id).mpr (.inr ⟨p, _, name, hleaf, hreached⟩), ?_⟩
    obtain ⟨d, ⟨st₁, st₂, _, hinject⟩, hat⟩ := (hbranches.leafAt hleaf).1 hreached
    rw [inject, injectLeaf, htrim] at hinject
    cases hinject
    exact List.mem_map_of_mem (f := Composite.id) (Composite.mem_nodes_of_nodeAt hat)

end

end AnomalyInjector

/-! ## Runs -/

theorem exists_forall₂ {α β : Type} {R : α → β → Prop} {l : List α} (h : ∀ a ∈ l, ∃ b, R a b) :
    ∃ bs, List.Forall₂ R l bs := by
  induction l with
  | nil => exact ⟨[], .nil⟩
  | cons a l ih =>
      obtain ⟨ha, hl⟩ := List.forall_mem_cons.mp h
      obtain ⟨b, hb⟩ := ha
      obtain ⟨bs, hbs⟩ := ih hl
      exact ⟨b :: bs, .cons hb hbs⟩

namespace InjectorPerformer

/-- The anomalies are sequences of leaves without a command. -/
def IsAnomaly (t : Tree) : Prop :=
  ∃ k sons, t = anomaly k sons ∧ sons ≠ [] ∧
    ∀ d ∈ sons, ∃ kind name, d = .leaf kind name ∧ kind ≠ .commandComposite

theorem isAnomaly_stringNode (k : Nat) (s : Bytes) : IsAnomaly (anomaly k [stringNode s]) :=
  ⟨k, _, rfl, nofun, fun _ hd => ⟨_, _, List.mem_singleton.mp hd, nofun⟩⟩

theorem isAnomaly_hexNode (k : Nat) (s : Bytes) : IsAnomaly (anomaly k [hexNode s]) :=
  ⟨k, _, rfl, nofun, fun _ hd => ⟨_, _, List.mem_singleton.mp hd, nofun⟩⟩

theorem isAnomaly_MIDDLETERM (k : Nat) (rand : Nat → Nat) (s term : Bytes) :
    IsAnomaly (stringInjectionMIDDLETERM k rand s term) := by
  rw [stringInjectionMIDDLETERM]
  split
  · exact isAnomaly_stringNode k s
  · refine ⟨k, _, rfl, List.cons_ne_nil _ _, fun d hd => ?_⟩
    simp only [List.mem_cons, List.not_mem_nil, or_false] at hd
    obtain rfl | rfl | rfl := hd
    · exact ⟨_, _, rfl, by simp⟩
    · exact ⟨_, _, rfl, by simp⟩
    · exact ⟨_, _, rfl, by simp⟩

theorem isAnomaly_of_mem_addFaults {k : Nat} {text : Bytes} {rand : Nat → Nat → Nat} {t : Tree}
    (h : t ∈ addFaults k text rand) : IsAnomaly t := by
  simp only [addFaults, List.mem_cons, List.not_mem_nil, or_false] at h
  obtain rfl | rfl | rfl | rfl | rfl | rfl | rfl := h
  · exact isAnomaly_MIDDLETERM _ _ _ _
  · exact isAnomaly_MIDDLETERM _ _ _ _
  · exact isAnomaly_MIDDLETERM _ _ _ _
  · exact isAnomaly_stringNode _ _
  · exact isAnomaly_hexNode _ _
  · exact isAnomaly_hexNode _ _
  · exact isAnomaly_stringNode _ _

variable {P : Platform} {sel : Nat → Nat} {e : Env}

/-- An anomaly is evaluated without effects, whatever the names of its leaves are. -/
theorem IsAnomaly.exists_yields {t : Tree} (h : IsAnomaly t) : ∃ b, Yields P sel e t b := by
  obtain ⟨k, sons, rfl, hne, hleaves⟩ := h
  have hsons : ∀ d ∈ sons, ∃ b, Yields P sel e d b := by
    intro d hd
    obtain ⟨kind, name, rfl, _⟩ := hleaves d hd
    exact ⟨(leafState kind 0 name).getStringToSend, yields_leaf fun _ => by cases kind <;> rfl⟩
  obtain ⟨bs, hbs⟩ := exists_forall₂ hsons
  refine ⟨bs.flatten, yields_anomaly hbs hne (fun name hname => ?_) k⟩
  obtain ⟨kind, name', he, hkind⟩ := hleaves _ hname
  cases he
  exact hkind rfl

/-- The alternation of a leaf at its first alternative. -/
theorem eval_createFaults (anomalyCounter orCounter : Nat) (text name : Bytes)
    (rand : Nat → Nat → Nat) {nextId : Nat} (hsel : sel nextId = 0) :
    eval P sel (makeNode (createFaults anomalyCounter text orCounter rand name) nextId).1 e =
      .ok ((leafState .stringLeaf (nextId + 1) name).setFaultValue.setName
        ("Anomaly-" ++ toString 0), e) := by
  have hfaults : ∀ t ∈ addFaults anomalyCounter text rand, ∃ b, Yields P sel e t b :=
    fun t ht => (isAnomaly_of_mem_addFaults ht).exists_yields
  obtain ⟨bs, hbs⟩ := exists_forall₂ hfaults
  obtain ⟨ss, hss, hsends⟩ := evalSons_sends (forall₂_yields hbs (shapes_makeSons _ (nextId + 2)))
  have hunbound := (flatMap_of_forall₂ hsends).2
  have hsons : evalSons P sel (.leaf .stringLeaf (nextId + 1) name ::
      (makeSons (addFaults anomalyCounter text rand) (nextId + 2)).1) e =
      .ok (leafState .stringLeaf (nextId + 1) name :: ss, e) := by
    rw [evalSons, eval, pure_bind, Comp.bind_eq, hss]
    rfl
  change injectAction (fun _ => pure (sel nextId)) (evalSons P sel
    (.leaf .stringLeaf (nextId + 1) name ::
      (makeSons (addFaults anomalyCounter text rand) (nextId + 2)).1)) e = _
  rw [injectAction, Comp.bind_eq, hsons, hsel]
  change liftEnv (selectResult 0 (leafState .stringLeaf (nextId + 1) name :: ss)) e = _
  rw [liftEnv_env]
  refine selectResult_eq rfl ?_ e
  rw [List.forall_mem_cons]
  exact ⟨(leafState_quiet _ _ _).2, fun s hs => (hunbound s hs).2⟩

end InjectorPerformer

namespace Grafted

variable {P : Platform} {sel : Nat → Nat} {n : Nat}

theorem commandName_eq {c c' : Composite} (h : Grafted n c c') :
    c.commandName = c'.commandName := by
  cases h with
  | leaf => rfl
  | copy kind => cases kind <;> rfl
  | faults => rfl
  | node => rfl

/-- The new tree makes the calls of the old one, where the new alternations select their
first sons. -/
theorem alike (hsel : ∀ i, n ≤ i → sel i = 0) {c c' : Composite} (h : Grafted n c c')
    (v : Views) : Comp.Sim SameSight (Alike v) (eval P sel c) (eval P sel c') := by
  induction c using Composite.induction generalizing c' v with
  | h c ih =>
      cases h with
      | leaf kind id name =>
          rw [eval]
          exact .pure (alike_leaf v kind id id name)
      | @copy kind id name id' hid =>
          rw [eval, eval]
          exact .pure (alike_leaf v kind id id' name)
      | @faults id name text hne anomalyCounter orCounter rand nextId hid =>
          intro e e' he
          rw [InjectorPerformer.eval_createFaults _ _ _ _ _ (hsel nextId hid), eval]
          exact ⟨(alike_leaf v _ id _ name).selected (leafState_quiet _ _ _).1 _, he⟩
      | @node kind id name sons sons' hsons =>
          have hlen := hsons.length_eq
          have hson : ∀ (v : Nat → Views) (k : Nat) d d', sons[k]? = some d →
              sons'[k]? = some d' →
              Comp.Sim SameSight (Alike (v k)) (eval P sel d) (eval P sel d') := by
            intro v k d d' hd hd'
            obtain ⟨d₀, hd₀, hgrafted⟩ := Grafted.getElem? hsons hd'
            rw [hd] at hd₀
            cases hd₀
            exact ih d (List.mem_of_getElem? hd) hgrafted (v k)
          have hname : ∀ v : Views, SameName v name name := fun v => ⟨fun _ => rfl, fun _ => rfl⟩
          have ha : factoryAction sons = factoryAction sons' :=
            StandsFor.factoryAction_eq hlen fun d d' hd hd' => by
              obtain ⟨d₀, hd₀, hgrafted⟩ := Grafted.getElem? hsons hd'
              rw [hd] at hd₀
              cases hd₀
              exact hgrafted.commandName_eq
          rw [eval, eval]
          cases kind with
          | composite =>
              rw [strategyOf, strategyOf, ← ha, ← hlen]
              obtain hr | ⟨socket, hr⟩ | ⟨socket, hr⟩ | ⟨cmd, hr⟩ := factoryAction_cases sons
              · rw [hr]
                exact returnAction_alike
                  (StandsFor.evalSonsReturn_alike hlen (hson fun _ => {})) (hname v)
              · rw [hr]
                exact sendAction_alike (StandsFor.evalSons_alike hlen (hson fun _ => {}))
              · rw [hr]
                exact readAction_alike (StandsFor.evalSons_alike hlen (hson fun _ => {}))
              · rw [hr]
                exact commandActionOn_alike (StandsFor.evalSons_alike hlen (hson cmd.reads))
                  (fun _ => hname v) _
          | orComposite =>
              rw [strategyOf, strategyOf, runAction, runAction]
              exact injectAction_alike (StandsFor.evalSons_alike hlen (hson fun _ => v)) _
          | repeatComposite =>
              rw [strategyOf, strategyOf, runAction, runAction]
              exact repeatAction_alike
                (StandsFor.evalSonsReturn_alike hlen (hson fun _ => {}))

end Grafted

namespace AnomalyInjector

variable {rand : Nat → Nat → Nat → Nat}

/-- Injection leaves no deleted node in the tree, and the tree makes the calls of the old
one while the new alternations select their first sons, if and only if no string leaf
without text is reached and no `Memorize` on the way is short of its value. -/
theorem baseline_kept_iff (t : ParsedTree) (hquoted : t.root.Quoted) {n : Nat}
    (hids : ∀ c ∈ t.root.nodes, c.id < n) (g : TSGenerator) (rand : Nat → Nat → Nat → Nat)
    (returned : Nat → Bool) :
    (∃ root st', autoInject rand g returned t.root { nextId := n } = some (root, st') ∧
        (∀ i ∈ st'.deleted, i ∉ root.nodes.map Composite.id) ∧
        ∀ (P : Platform) (sel : Nat → Nat), (∀ i, n ≤ i → sel i = 0) →
          Comp.Sim SameSight (Alike {}) (eval P sel t.root) (eval P sel root)) ↔
      (∀ p d, t.root.nodeAt p = some d → t.root.Reached returned p → d.shortMemorize = false) ∧
        ∀ p id name, t.root.nodeAt p = some (.leaf .stringLeaf id name) →
          t.root.Reached returned p → trim name ≠ some [] := by
  rw [← injectSends_ends_iff (g := g) hquoted rand returned { nextId := n }]
  constructor
  · rintro ⟨root, st', hinject, hdeleted, _⟩
    rw [autoInject_eq] at hinject
    obtain ⟨⟨branches, st₁⟩, hsends, he⟩ := Option.map_eq_some_iff.mp hinject
    cases he
    refine ⟨Option.isSome_of_eq_some hsends, fun p id name hleaf hreached htrim => ?_⟩
    obtain ⟨i, hi, hmem⟩ := (dangling_iff hids rfl hsends).mpr
      ⟨p, id, name, hleaf, hreached, htrim⟩
    exact hdeleted i hi hmem
  · rintro ⟨hends, htext⟩
    obtain ⟨⟨branches, st'⟩, hsends⟩ := Option.isSome_iff_exists.mp hends
    refine ⟨_, st', by rw [autoInject_eq, hsends]; rfl, fun i hi hmem => ?_, fun P sel hsel => ?_⟩
    · obtain ⟨p, id, name, hleaf, hreached, htrim⟩ :=
        (dangling_iff hids rfl hsends).mp ⟨i, hi, hmem⟩
      exact htext p id name hleaf hreached htrim
    · exact (injectSends_branches (Nat.le_refl n) hsends).grafted.alike hsel {}

/-! ## An empty text -/

theorem trim_sendInSequence {p : List Nat} {id : Nat} {name : Bytes}
    (h : (sendInSequence (ascii "a")).root.nodeAt p = some (.leaf .stringLeaf id name)) :
    trim name ≠ some [] := by
  have hmem := Composite.mem_nodes_of_nodeAt h
  simp [sendInSequence, sendOfText, Composite.nodes, Composite.nodesOf] at hmem
  have htrim : trim (InjectorPerformer.addQuote (ascii "a")) = some (ascii "a") := rfl
  rw [hmem.2, htrim]
  nofun

theorem baseline_kept_iff_sequence :
    ∃ root st', autoInject (fun _ _ _ => 0) .exp (fun _ => true)
      (sendInSequence (ascii "a")).root { nextId := 4 } = some (root, st') ∧
      (∀ i ∈ st'.deleted, i ∉ root.nodes.map Composite.id) ∧
      ∀ (P : Platform) (sel : Nat → Nat), (∀ i, 4 ≤ i → sel i = 0) → Comp.Sim SameSight (Alike {})
        (eval P sel (sendInSequence (ascii "a")).root) (eval P sel root) := by
  have hshort : ∀ d ∈ (sendInSequence (ascii "a")).root.nodes, (!d.shortMemorize) = true :=
    List.all_eq_true.mp rfl
  refine (baseline_kept_iff (sendInSequence (ascii "a")) (List.all_eq_true.mp rfl) (by decide)
    .exp (fun _ _ _ => 0) (fun _ => true)).mpr ⟨fun p d hd _ => ?_,
    fun _ _ _ hleaf _ => trim_sendInSequence hleaf⟩
  exact Bool.not_eq_true' _ ▸ hshort d (Composite.mem_nodes_of_nodeAt hd)

/-- The leaf of an empty text is deleted, and stays in the tree. -/
theorem empty_text_dangles : ¬ ∀ t : ParsedTree, t.root.Quoted → ∀ n : Nat,
    (∀ c ∈ t.root.nodes, c.id < n) → ∀ (g : TSGenerator) (rand : Nat → Nat → Nat → Nat)
    (returned : Nat → Bool),
    ∃ root st', autoInject rand g returned t.root { nextId := n } = some (root, st') ∧
      (∀ i ∈ st'.deleted, i ∉ root.nodes.map Composite.id) ∧
      ∀ (P : Platform) (sel : Nat → Nat), (∀ i, n ≤ i → sel i = 0) →
        Comp.Sim SameSight (Alike {}) (eval P sel t.root) (eval P sel root) := by
  intro hall
  obtain ⟨root, st', hinject, hdeleted, _⟩ := hall (sendInSequence []) (List.all_eq_true.mp rfl) 4
    (by decide) .exp (fun _ _ _ => 0) (fun _ => true)
  have hrun : autoInject (fun _ _ _ => 0) .exp (fun _ => true) (sendInSequence []).root
      { nextId := 4 } = some (.node .composite 0 (ascii "r") [.node .composite 1 (ascii "s")
        [.leaf .commandComposite 4 (ascii "<%UDP_send%>"),
          .leaf .stringLeaf 3 (InjectorPerformer.addQuote [])]],
        { nextId := 5, deleted := [3, 2] }) := rfl
  rw [hrun] at hinject
  cases hinject
  exact hdeleted 3 (by decide) (by decide)

end AnomalyInjector

end Stress

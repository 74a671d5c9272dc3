import Stress.Library.Odometer
import Stress.Generator
import Stress.State

/-!
# The test case manager

The part of `lib/test-case-manager` that decides which alternative an injector
selects.  The manager keeps one `InjectState` for each registered injector, in
a map ordered by injection id, and the list of the injectors the current test
case enables.  An element of that list is a pointer into the map, and is given
by its key.  An entry that a second injector with the same id replaces is never
in the list, since only the id `2 ^ 63` is issued twice and no test case enables
it (`TSGenerator.enable_exp`).

The enabled injectors count through their alternatives as the wheels of an
odometer do (`digits_updateInjectorState`).
-/

namespace Stress

structure InjectState where
  numSons : Int := -1
  last : Nat := 1
deriving DecidableEq, Repr

namespace InjectState

def resetState (s : InjectState) : InjectState := { s with last := 1 }

/-- The state after `increaseState`, and its result. -/
def increaseState (s : InjectState) : InjectState × Bool :=
  if s.numSons ≤ s.last + 1 then (s.resetState, false) else ({ s with last := s.last + 1 }, true)

end InjectState

structure TestCaseManager where
  observer : Std.TreeMap UInt64 InjectState := ∅
  testCaseState : List UInt64 := []

namespace TestCaseManager

def registerInjector (id : UInt64) (m : TestCaseManager) : TestCaseManager :=
  { m with observer := m.observer.insert id {} }

/-- `setSonsNumber(uint64_t, int)` for a number of type `size_t`. -/
def setSonsNumber (id : UInt64) (number : Nat) (m : TestCaseManager) :
    Except Fault TestCaseManager :=
  match m.observer[id]? with
  | none => .error .nullPointer
  | some s =>
      if s.numSons < 0 then
        .ok { m with observer := m.observer.insert id { s with numSons := toInt32 number } }
      else .ok m

/-- The product of the loop in `getRun`. -/
def runProduct : Int → List InjectState → Except Fault Int
  | result, [] => .ok result
  | result, s :: ss =>
      if intMin ≤ s.numSons - 1 ∧ intMin ≤ result * (s.numSons - 1) ∧
          result * (s.numSons - 1) ≤ intMax then
        runProduct (result * (s.numSons - 1)) ss
      else .error .intOverflow

/-- The injectors a test case enables, in the order of the map. -/
def enabled (g : TSGenerator) (id : UInt64) (m : TestCaseManager) : List (UInt64 × InjectState) :=
  m.observer.toList.filter fun p => g.enable id p.1

def getRun (g : TSGenerator) (id : UInt64) (m : TestCaseManager) :
    Except Fault (Int × TestCaseManager) :=
  match runProduct 1 ((m.enabled g id).map Prod.snd) with
  | .error x => .error x
  | .ok result =>
      .ok (result,
        { observer := m.observer.map fun k s => if g.enable id k then s.resetState else s
          testCaseState := (m.enabled g id).map Prod.fst })

def updateInjector (id : UInt64) (m : TestCaseManager) : Nat :=
  if id ∈ m.testCaseState then
    match m.observer[id]? with
    | some s => s.last
    | none => 0
  else 0

/-- Increase the injectors of a list in turn, as long as one starts over. -/
def increaseStates : List UInt64 → TestCaseManager → TestCaseManager
  | [], m => m
  | id :: ids, m =>
      match m.observer[id]? with
      | none => m
      | some s =>
          let m' := { m with observer := m.observer.insert id s.increaseState.1 }
          if s.increaseState.2 then m' else increaseStates ids m'

def updateInjectorState (m : TestCaseManager) : TestCaseManager :=
  increaseStates m.testCaseState m

/-! ## Entries of the map -/

theorem getElem?_insert (t : Std.TreeMap UInt64 InjectState) (k k' : UInt64) (s : InjectState) :
    (t.insert k s)[k']? = if k = k' then some s else t[k']? := by
  rw [Std.TreeMap.getElem?_insert]
  simp only [Std.LawfulEqCmp.compare_eq_iff_eq]

theorem mem_enabled {g : TSGenerator} {id : UInt64} {m : TestCaseManager}
    {p : UInt64 × InjectState} :
    p ∈ m.enabled g id ↔ m.observer[p.1]? = some p.2 ∧ g.enable id p.1 = true := by
  rw [enabled, List.mem_filter, Std.TreeMap.mem_toList_iff_getElem?_eq_some]

/-- A test case enables an injector once. -/
theorem enabled_nodup (g : TSGenerator) (id : UInt64) (m : TestCaseManager) :
    ((m.enabled g id).map Prod.fst).Nodup := by
  have hkeys : (m.observer.toList.map Prod.fst).Nodup := by
    rw [List.nodup_iff_pairwise_ne, List.pairwise_map]
    refine Std.TreeMap.distinct_keys_toList.imp ?_
    intro a b hab he
    exact hab (Std.LawfulEqCmp.compare_eq_iff_eq.mpr he)
  exact hkeys.sublist (List.filter_sublist.map _)

/-- What `setSonsNumber` leaves for an injector. -/
theorem setSonsNumber_ok {id : UInt64} {number : Nat} {m m' : TestCaseManager}
    (h : m.setSonsNumber id number = .ok m') :
    m'.testCaseState = m.testCaseState ∧
      ∃ s, m.observer[id]? = some s ∧ ∀ k, m'.observer[k]? =
        if id = k then
          some (if s.numSons < 0 then { s with numSons := toInt32 number } else s)
        else m.observer[k]? := by
  unfold setSonsNumber at h
  split at h
  · cases h
  · next s hs =>
      split at h
      · next hneg =>
          cases h
          refine ⟨rfl, s, hs, fun k => ?_⟩
          rw [if_pos hneg]
          exact getElem?_insert _ _ _ _
      · next hnonneg =>
          cases h
          refine ⟨rfl, s, hs, fun k => ?_⟩
          rw [if_neg hnonneg]
          split
          · next he => rw [← he, hs]
          · rfl

/-! ## The odometer -/

/-- The alternative an entry of the map stands at. -/
def digit (m : TestCaseManager) (id : UInt64) : Nat :=
  match m.observer[id]? with
  | some s => s.last
  | none => 0

/-- `getNumSons` of an entry of the map. -/
def numSons (m : TestCaseManager) (id : UInt64) : Int :=
  match m.observer[id]? with
  | some s => s.numSons
  | none => -1

/-- The bound an entry of the map counts to. -/
def wheel (m : TestCaseManager) (id : UInt64) : Nat := (m.numSons id).toNat

theorem updateInjector_eq (id : UInt64) (m : TestCaseManager) :
    m.updateInjector id = if id ∈ m.testCaseState then m.digit id else 0 := rfl

theorem digit_eq {m m' : TestCaseManager} {id : UInt64}
    (h : m'.observer[id]? = m.observer[id]?) : m'.digit id = m.digit id := by
  rw [digit, digit, h]

theorem wheel_eq {m m' : TestCaseManager} {id : UInt64}
    (h : m'.observer[id]? = m.observer[id]?) : m'.wheel id = m.wheel id := by
  rw [wheel, wheel, numSons, numSons, h]

/-- Increasing changes the positions only. -/
theorem increaseStates_frame (ids : List UInt64) (m : TestCaseManager) :
    (increaseStates ids m).testCaseState = m.testCaseState ∧
    (∀ k : UInt64, k ∉ ids → (increaseStates ids m).observer[k]? = m.observer[k]?) ∧
    (∀ k : UInt64, ((increaseStates ids m).observer[k]?).map InjectState.numSons =
      (m.observer[k]?).map InjectState.numSons) := by
  induction ids generalizing m with
  | nil => exact ⟨rfl, fun _ _ => rfl, fun _ => rfl⟩
  | cons id ids ih =>
      rw [increaseStates]
      split
      · exact ⟨rfl, fun _ _ => rfl, fun _ => rfl⟩
      · next s hs =>
          have hsons : s.increaseState.1.numSons = s.numSons := by
            rw [InjectState.increaseState]
            split <;> rfl
          have hentry : ∀ k : UInt64, k ∉ id :: ids →
              (m.observer.insert id s.increaseState.1)[k]? = m.observer[k]? := by
            intro k hk
            rw [getElem?_insert, if_neg (fun he => hk (by simp [he]))]
          have hnum : ∀ k : UInt64, ((m.observer.insert id s.increaseState.1)[k]?).map
              InjectState.numSons = (m.observer[k]?).map InjectState.numSons := by
            intro k
            rw [getElem?_insert]
            split
            · next he => rw [← he, hs, Option.map_some, Option.map_some, hsons]
            · rfl
          simp only
          split
          · exact ⟨rfl, hentry, hnum⟩
          · obtain ⟨ht, ho, hn⟩ := ih { m with observer := m.observer.insert id s.increaseState.1 }
            refine ⟨ht, fun k hk => ?_, fun k => ?_⟩
            · rw [ho k (fun hm => hk (by simp [hm]))]
              exact hentry k hk
            · rw [hn k]
              exact hnum k

/-- What increasing one entry keeps holds of every entry afterwards. -/
theorem increaseStates_forall {p : UInt64 → InjectState → Prop}
    (hp : ∀ k s, p k s → p k s.increaseState.1) (ids : List UInt64) {m : TestCaseManager}
    (hm : ∀ (k : UInt64) s, m.observer[k]? = some s → p k s) :
    ∀ (k : UInt64) s, (increaseStates ids m).observer[k]? = some s → p k s := by
  induction ids generalizing m with
  | nil => exact hm
  | cons id ids ih =>
      rw [increaseStates]
      split
      · exact hm
      · next s hs =>
          have hentry : ∀ (k : UInt64) s', (m.observer.insert id s.increaseState.1)[k]? = some s' →
              p k s' := by
            intro k s' hk
            rw [getElem?_insert] at hk
            split at hk
            · next he =>
                cases hk
                exact hp k s (hm k s (he ▸ hs))
            · exact hm k s' hk
          simp only
          split
          · exact hentry
          · exact ih hentry

/-- Increasing a list of injectors is a tick of their odometer. -/
theorem digits_increaseStates {ids : List UInt64} {m : TestCaseManager} (hnd : ids.Nodup)
    (hmem : ∀ id ∈ ids, (m.observer[id]?).isSome) :
    ids.map (increaseStates ids m).digit = Odometer.tick (ids.map m.wheel) (ids.map m.digit) := by
  induction ids generalizing m with
  | nil => rfl
  | cons id ids ih =>
      obtain ⟨hid, hnd⟩ := List.nodup_cons.mp hnd
      obtain ⟨s, hs⟩ := Option.isSome_iff_exists.mp (hmem id (by simp))
      have hdigit : m.digit id = s.last := by rw [digit, hs]
      have hwheel : m.wheel id = s.numSons.toNat := by rw [wheel, numSons, hs]
      let m' : TestCaseManager := { m with observer := m.observer.insert id s.increaseState.1 }
      have hentry : ∀ k ∈ ids, m'.observer[k]? = m.observer[k]? := by
        intro k hk
        change (m.observer.insert id s.increaseState.1)[k]? = _
        rw [getElem?_insert, if_neg (fun he : id = k => hid (he ▸ hk))]
      have hlast : m'.digit id = s.increaseState.1.last := by
        have hself : m'.observer[id]? = some s.increaseState.1 := by
          change (m.observer.insert id s.increaseState.1)[id]? = _
          rw [getElem?_insert, if_pos rfl]
        rw [digit, hself]
      have hstep : increaseStates (id :: ids) m =
          if s.increaseState.2 then m' else increaseStates ids m' := by
        rw [increaseStates, hs]
      rw [List.map_cons, List.map_cons, List.map_cons, Odometer.tick, hdigit, hwheel]
      by_cases hcarry : s.numSons ≤ s.last + 1
      · have hinc : s.increaseState = (s.resetState, false) := if_pos hcarry
        have hcarry' : s.numSons.toNat ≤ s.last + 1 := by omega
        rw [hinc, if_neg (by simp)] at hstep
        rw [hinc] at hlast
        rw [if_pos hcarry', hstep]
        have hkeep : (increaseStates ids m').observer[id]? = m'.observer[id]? :=
          (increaseStates_frame ids m').2.1 id hid
        rw [digit_eq hkeep, hlast, ih hnd]
        · refine congrArg₂ _ rfl (congrArg₂ _ ?_ ?_)
          · exact List.map_congr_left fun k hk => wheel_eq (hentry k hk)
          · exact List.map_congr_left fun k hk => digit_eq (hentry k hk)
        · intro k hk
          rw [hentry k hk]
          exact hmem k (by simp [hk])
      · have hinc : s.increaseState = ({ s with last := s.last + 1 }, true) := if_neg hcarry
        have hcarry' : ¬ s.numSons.toNat ≤ s.last + 1 := by omega
        rw [hinc, if_pos rfl] at hstep
        rw [hinc] at hlast
        rw [if_neg hcarry', hstep, hlast]
        exact congrArg _ (List.map_congr_left fun k hk => digit_eq (hentry k hk))

end TestCaseManager

end Stress

import Stress.Steps

/-!
# What a run does to its environment

A run adds calls to the trace, leaves the last frame alone or takes it away, and
binds variables.  A variable that is bound keeps its bytes, unless it points into
the last frame and a read takes that away.  The variables that point into the
states a run returns are new ones, and while such a variable is live it stands
for the bytes of its state.  `eval_effect` says this of every run.

A run that makes no call and binds no variable changes nothing (`Effect.still`).
-/

namespace Stress

/-! ## Bindings inside states -/

namespace State

/-- The variables that point into a state, with the bytes they stand for. -/
def wires (s : State) : List (Bytes × Bytes) := s.bindings.map fun p => (p.1, p.2.getStringToSend)

theorem wires_eq (s : State) :
    s.wires = s.data.boundAs.map (·, s.getStringToSend) ++ s.sons.flatMap wires := by
  rw [wires, bindings_eq, List.map_append, List.map_map, List.map_flatMap]
  rfl

theorem boundNames_eq_wires (s : State) : s.boundNames = s.wires.map Prod.fst := by
  rw [boundNames, wires, List.map_map]
  rfl

theorem wires_eq_nil_iff {s : State} : s.wires = [] ↔ s.boundNames = [] := by
  rw [boundNames_eq_wires, List.map_eq_nil_iff]

@[simp] theorem wires_setStateValue (v : StateValue) (s : State) :
    (s.setStateValue v).wires = s.wires := by
  rw [wires_eq, wires_eq s, getStringToSend_setStateValue, setStateValue_data, setStateValue_sons]

@[simp] theorem wires_setName (n : String) (s : State) : (s.setName n).wires = s.wires := by
  induction s using State.induction with
  | h s ih =>
      have hsons : (s.sons.map (setName n)).flatMap wires = s.sons.flatMap wires := by
        rw [List.flatMap_map]
        exact List.flatMap_congr ih
      rw [wires_eq, wires_eq s, getStringToSend_setName, setName_eq]
      cases s.data.cls <;> simp [hsons]

/-- The bindings of a state without own ones are those of its sons. -/
theorem wires_of_unbound {s : State} (h : s.data.boundAs = []) :
    s.wires = s.sons.flatMap wires := by
  rw [wires_eq, h]
  rfl

theorem wires_bind {var : Bytes} {s : State} :
    (s.bind var).wires = (var, s.getStringToSend) :: s.wires := by
  rw [wires_eq, getStringToSend_bind, wires_eq s, bind, data_update, sons_update]
  rfl

end State

/-! ## Effects -/

/-- The variables that point into the last frame. -/
def Env.frameNames (e : Env) : List Bytes :=
  match e.lastFrame with
  | some s => s.boundNames
  | none => []

/-- What happens to the trace and the variables between `e` and `e'`, for the
bindings `ws` of the states returned. -/
structure Touches (e : Env) (ws : List (Bytes × Bytes)) (e' : Env) : Prop where
  trace : e.trace <+: e'.trace
  kept : ∀ n, (e.view n).isSome → e'.view n = e.view n ∨
    (n ∈ e.frameNames ∧ e'.view n = some none)
  fresh : ∀ p ∈ ws, e.view p.1 = none
  held : ∀ p ∈ ws, e'.view p.1 = some (some p.2) ∨ e'.view p.1 = some none

/-- The effect of a run. -/
structure Effect (e : Env) (ws : List (Bytes × Bytes)) (e' : Env) : Prop
    extends Touches e ws e' where
  frame : e'.lastFrame = e.lastFrame ∨ e'.lastFrame = none
  still : e'.trace = e.trace → (∀ n, e.view n = none → e'.view n = none) → e' = e

theorem Touches.bound {e e' : Env} {ws : List (Bytes × Bytes)} (h : Touches e ws e') {n : Bytes}
    (hn : (e.view n).isSome) : (e'.view n).isSome := by
  cases h.kept n hn with
  | inl hkept => rw [hkept]; exact hn
  | inr hgone => rw [hgone.2]; rfl

theorem Touches.unbound {e e' : Env} {ws : List (Bytes × Bytes)} (h : Touches e ws e') {n : Bytes}
    (hn : e'.view n = none) : e.view n = none := by
  by_contra hne
  have := h.bound (Option.isSome_iff_ne_none.mpr hne)
  rw [hn] at this
  cases this

theorem Touches.mono {e e' : Env} {ws ws' : List (Bytes × Bytes)} (h : Touches e ws e')
    (hsub : ∀ p ∈ ws', p ∈ ws) : Touches e ws' e' :=
  ⟨h.trace, h.kept, fun p hp => h.fresh p (hsub p hp), fun p hp => h.held p (hsub p hp)⟩

/-- Effects one after the other.  The frame in between belongs to the first
environment or to the run. -/
theorem Touches.trans {e e₁ e' : Env} {ws ws' : List (Bytes × Bytes)} (h : Touches e ws e₁)
    (h' : Touches e₁ ws' e') (hframe : ∀ n ∈ e₁.frameNames, n ∈ e.frameNames ∨ e.view n = none) :
    Touches e (ws ++ ws') e' where
  trace := h.trace.trans h'.trace
  kept n hn := by
    cases h'.kept n (h.bound hn) with
    | inl hkept =>
        rw [hkept]
        exact h.kept n hn
    | inr hgone =>
        cases hframe n hgone.1 with
        | inl hmem => exact .inr ⟨hmem, hgone.2⟩
        | inr hnone =>
            rw [hnone] at hn
            cases hn
  fresh p hp := by
    cases List.mem_append.mp hp with
    | inl hp => exact h.fresh p hp
    | inr hp => exact h.unbound (h'.fresh p hp)
  held p hp := by
    cases List.mem_append.mp hp with
    | inl hp =>
        have hbound : (e₁.view p.1).isSome := by
          cases h.held p hp with
          | inl hlive => rw [hlive]; rfl
          | inr hgone => rw [hgone]; rfl
        cases h'.kept p.1 hbound with
        | inl hkept => rw [hkept]; exact h.held p hp
        | inr hgone => exact .inr hgone.2
    | inr hp => exact h'.held p hp

namespace Effect

variable {e e₁ e' : Env} {ws ws' : List (Bytes × Bytes)}

theorem refl (e : Env) : Effect e [] e where
  trace := List.prefix_rfl
  kept _ _ := .inl rfl
  fresh := nofun
  held := nofun
  frame := .inl rfl
  still _ _ := rfl

theorem mono (h : Effect e ws e') (hsub : ∀ p ∈ ws', p ∈ ws) : Effect e ws' e' :=
  { h.toTouches.mono hsub with frame := h.frame, still := h.still }

theorem frameNames (h : Effect e ws e') {n : Bytes} (hn : n ∈ e'.frameNames) :
    n ∈ e.frameNames := by
  unfold Env.frameNames at *
  cases h.frame with
  | inl heq => rwa [heq] at hn
  | inr hnone =>
      rw [hnone] at hn
      cases hn

theorem trans (h : Effect e ws e₁) (h' : Effect e₁ ws' e') : Effect e (ws ++ ws') e' where
  toTouches := h.toTouches.trans h'.toTouches fun _ hn => .inl (h.frameNames hn)
  frame := by
    cases h'.frame with
    | inl heq => rw [heq]; exact h.frame
    | inr hnone => exact .inr hnone
  still htrace hnew := by
    have hback : e₁.trace = e.trace := by
      refine (h.trace.eq_of_length_le ?_).symm
      rw [← htrace]
      exact h'.trace.length_le
    have he₁ : e₁ = e := h.still hback fun n hn => h'.unbound (hnew n hn)
    subst he₁
    exact h'.still htrace hnew

/-- Without new variables nothing points into the states returned. -/
theorem wires_eq_nil (h : Effect e ws e) : ws = [] := by
  cases ws with
  | nil => rfl
  | cons p ws =>
      have hfresh := h.fresh p List.mem_cons_self
      cases h.held p List.mem_cons_self with
      | inl hlive => rw [hfresh] at hlive; cases hlive
      | inr hgone => rw [hfresh] at hgone; cases hgone

end Effect

/-! ## Steps on the environment -/

section Steps

variable {e e₁ e' : Env} {ws : List (Bytes × Bytes)}

theorem sent_effect (data : Bytes) (e : Env) : Effect e [] (e.sent data) where
  trace := List.prefix_append _ _
  kept _ _ := .inl rfl
  fresh := nofun
  held := nofun
  frame := .inl rfl
  still htrace _ := by
    have hlen := congrArg List.length htrace
    rw [Env.sent, List.length_append, List.length_singleton] at hlen
    omega

/-- A new variable. -/
theorem bind_effect {var : Bytes} (hnone : e.vars.lookup var = none) (s : State) :
    Effect e [(var, s.getStringToSend)] { e with vars := (var, .live s) :: e.vars } where
  trace := List.prefix_rfl
  kept n hn := by
    have hne : n ≠ var := by
      rintro rfl
      rw [Env.view, hnone] at hn
      cases hn
    refine .inl ?_
    rw [Env.view, List.lookup_cons, beq_false_of_ne hne, Env.view]
  fresh p hp := by
    rw [List.mem_singleton.mp hp, Env.view, hnone]
    rfl
  held p hp := by
    refine .inl ?_
    rw [List.mem_singleton.mp hp, Env.view, List.lookup_cons_self]
    rfl
  frame := .inl rfl
  still _ hnew := by
    have hview := hnew var (by rw [Env.view, hnone]; rfl)
    rw [Env.view, List.lookup_cons_self] at hview
    cases hview

/-- Deleting states touches the variables only. -/
theorem foldl_delete_eq (ts : List State) (e : Env) :
    ∃ vars, ts.foldl (fun e t => e.delete t) e = { e with vars := vars } := by
  induction ts generalizing e with
  | nil => exact ⟨e.vars, rfl⟩
  | cons t ts ih => exact ih (e.delete t)

theorem view_foldl_delete (ts : List State) (e : Env) (n : Bytes) :
    (ts.foldl (fun e t => e.delete t) e).view n = if n ∈ ts.flatMap State.boundNames
      then (e.view n).map fun _ => none else e.view n := by
  induction ts generalizing e with
  | nil => rfl
  | cons t ts ih =>
      rw [List.foldl_cons, ih, Env.view_delete, List.flatMap_cons]
      by_cases ht : n ∈ t.boundNames
      · simp only [ht, if_true, List.mem_append, true_or]
        split <;> cases e.view n <;> rfl
      · simp only [ht, if_false, List.mem_append, false_or]

theorem Env.view_dropFrame (e : Env) (n : Bytes) :
    e.dropFrame.view n = if n ∈ e.frameNames then (e.view n).map fun _ => none else e.view n := by
  unfold Env.dropFrame Env.frameNames
  cases e.lastFrame with
  | none => rfl
  | some s => exact Env.view_delete s e n

theorem frameOf_unbound (P : Platform) (id : Nat) (o : ReadOutcome) :
    (frameOf P id o).data.boundAs = [] ∧ (frameOf P id o).sons = [] := by
  unfold frameOf
  split
  · exact ⟨rfl, rfl⟩
  · exact ⟨rfl, rfl⟩

/-- The head of a round takes the frame before away. -/
theorem roundStart_touches {P : Platform} {id : Nat} {o : ReadOutcome}
    (h : roundStart P id e = .ok (o, e')) :
    Touches e [] e' ∧ e'.frameNames = [] ∧ e.trace.length < e'.trace.length := by
  obtain ⟨_, rfl⟩ := roundStart_ok h
  obtain ⟨hbound, hsons⟩ := frameOf_unbound P id o
  refine ⟨⟨List.prefix_append _ _, fun n hn => ?_, nofun, nofun⟩, ?_, ?_⟩
  · have hview := e.view_dropFrame n
    split at hview
    · next hmem =>
        refine .inr ⟨hmem, hview.trans ?_⟩
        cases hv : e.view n with
        | none => rw [hv] at hn; cases hn
        | some b => rfl
    · exact .inl hview
  · have hnames : (frameOf P id o).boundNames = [] := by
      rw [State.boundNames_eq, hbound, hsons]
      rfl
    exact hnames
  · rw [List.length_append, List.length_singleton]
    exact Nat.lt_succ_self _

end Steps

/-! ## Actions -/

/-- The results of a computation point to their variables. -/
def Tracks (m : EnvComp (List State)) : Prop :=
  ∀ {e ss e'}, m e = .ok (ss, e') → Effect e (ss.flatMap State.wires) e'

section Actions

variable {P : Platform} {id : Nat} {name : Bytes} {all brk : EnvComp (List State)} {e e' : Env}
  {s : State}

theorem wires_push {t : State} (hbound : t.data.boundAs = []) (hsons : t.sons = [])
    (result : List State) : (t.push result).wires = result.flatMap State.wires := by
  rw [State.wires_of_unbound (s := t.push result) hbound, State.sons_push, hsons, List.nil_append]

theorem returnAction_effect (hbrk : Tracks brk) (h : returnAction id name brk e = .ok (s, e')) :
    Effect e s.wires e' := by
  obtain ⟨result, last, hrun, _, rfl⟩ := returnAction_ok h
  rw [wires_push (by split <;> rfl) (by split <;> rfl)]
  exact hbrk hrun

theorem runTimes_effect {m : EnvComp State}
    (hm : ∀ {e s e'}, m e = .ok (s, e') → Effect e s.wires e') {n : Nat} {ss : List State}
    (h : runTimes m n e = .ok (ss, e')) : Effect e (ss.flatMap State.wires) e' := by
  induction n generalizing e ss with
  | zero =>
      obtain ⟨rfl, rfl⟩ := Comp.pure_ok.mp h
      exact .refl _
  | succ n ih =>
      obtain ⟨s, e₁, ss', hs, hss, rfl⟩ := runTimes_succ_ok h
      exact (hm hs).trans (ih hss)

theorem repeatAction_effect (hbrk : Tracks brk) (h : repeatAction id name brk e = .ok (s, e')) :
    Effect e s.wires e' := by
  obtain ⟨results, hruns, rfl⟩ := repeatAction_ok h
  rw [wires_push rfl rfl]
  exact runTimes_effect (returnAction_effect hbrk) hruns

theorem sendAction_effect (hall : Tracks all) (h : sendAction id all e = .ok (s, e')) :
    Effect e s.wires e' := by
  obtain ⟨result, e₁, hrun, rfl, rfl⟩ := sendAction_ok h
  have hwires : (sentState id (dataToSend result) (e₁.sends.headD (dataToSend result).length)
      result).wires = result.flatMap State.wires := by
    rw [sentState, State.setPacketValue, State.wires_setStateValue]
    exact wires_push (by split <;> rfl) (by split <;> rfl) result
  rw [hwires]
  exact ((hall hrun).trans (sent_effect _ _)).mono fun p hp => List.mem_append_left _ hp

theorem isSome_view_foldl_delete (ts : List State) (e : Env) (n : Bytes) :
    ((ts.foldl (fun e t => e.delete t) e).view n).isSome = (e.view n).isSome := by
  rw [view_foldl_delete]
  split
  · rw [Option.isSome_map]
  · rfl

theorem isSome_view_refresh (t : State) (e : Env) (n : Bytes) :
    ((e.refresh t).view n).isSome = (e.view n).isSome := by
  rw [Env.view_refresh]
  split
  · rw [Option.isSome_map]
  · rfl

/-- A selection binds nothing and makes no call. -/
theorem selectResult_rest {value : Nat} {result : List State}
    (h : selectResult value result e = .ok (s, e')) :
    e'.trace = e.trace ∧ e'.lastFrame = e.lastFrame ∧
      ∀ n, (e'.view n).isSome = (e.view n).isSome := by
  obtain ⟨r, _, _, he'⟩ := selectResult_ok h
  obtain ⟨vars, hdelete⟩ := foldl_delete_eq (result.eraseIdx value) e
  refine ⟨?_, ?_, fun n => ?_⟩
  · rw [he', hdelete]
    rfl
  · rw [he', hdelete]
    rfl
  · rw [he', isSome_view_refresh, isSome_view_foldl_delete]

/-- The selected result keeps its variables, and those of the other results go. -/
theorem selectResult_effect {value : Nat} {result : List State} {e₁ : Env}
    (he : Effect e (result.flatMap State.wires) e₁)
    (h : selectResult value result e₁ = .ok (s, e')) : Effect e s.wires e' := by
  obtain ⟨r, hr, hs, he'⟩ := selectResult_ok h
  have hmem := List.mem_of_getElem? hr
  have hwires : s.wires = r.wires := by
    rw [hs, State.wires_setName, State.setFaultValue, State.wires_setStateValue]
  have hsub : ∀ p ∈ s.wires, p ∈ result.flatMap State.wires := by
    rw [hwires]
    exact fun p hp => List.mem_flatMap.mpr ⟨r, hmem, hp⟩
  have hview := Env.view_refresh s ((result.eraseIdx value).foldl (fun e t => e.delete t) e₁)
  rw [← he'] at hview
  obtain ⟨htrace, hframe, hsome⟩ := selectResult_rest h
  refine { toTouches := ⟨?_, ?_, fun p hp => he.fresh p (hsub p hp), ?_⟩, frame := ?_, still := ?_ }
  · rw [htrace]
    exact he.trace
  · intro n hn
    -- A variable that was bound before points into none of the results.
    have hnot : ∀ p ∈ result.flatMap State.wires, p.1 ≠ n := by
      rintro p hp rfl
      rw [he.fresh p hp] at hn
      cases hn
    have hs : s.bindings.lookup n = none := by
      rw [List.lookup_eq_none_iff]
      intro p hp
      rw [bne_iff_ne]
      exact (hnot _ (hsub _ (List.mem_map_of_mem hp))).symm
    have hdel : n ∉ (result.eraseIdx value).flatMap State.boundNames := by
      intro hn
      obtain ⟨t, ht, hnt⟩ := List.mem_flatMap.mp hn
      rw [State.boundNames_eq_wires] at hnt
      obtain ⟨p, hp, hpn⟩ := List.mem_map.mp hnt
      exact hnot p (List.mem_flatMap.mpr ⟨t, List.mem_of_mem_eraseIdx ht, hp⟩) hpn
    rw [hview, hs]
    simp only
    rw [view_foldl_delete, if_neg hdel]
    exact he.kept n hn
  · intro p hp
    have hheld := he.held p (hsub p hp)
    have hafter : ((result.eraseIdx value).foldl (fun e t => e.delete t) e₁).view p.1 =
        e₁.view p.1 ∨
        ((result.eraseIdx value).foldl (fun e t => e.delete t) e₁).view p.1 = some none := by
      rw [view_foldl_delete]
      split
      · cases hheld with
        | inl hlive => exact .inr (by rw [hlive]; rfl)
        | inr hgone => exact .inr (by rw [hgone]; rfl)
      · exact .inl rfl
    rw [hview]
    cases hlookup : s.bindings.lookup p.1 with
    | none =>
        cases hafter with
        | inl hsame => exact hsame ▸ hheld
        | inr hgone => exact .inr hgone
    | some t =>
        obtain ⟨l₁, l₂, hl, _⟩ := List.lookup_eq_some_iff.mp hlookup
        have hwire : (p.1, t.getStringToSend) ∈ s.wires := by
          refine List.mem_map.mpr ⟨(p.1, t), ?_, rfl⟩
          rw [hl]
          simp
        have ht := he.held _ (hsub _ hwire)
        simp only
        cases hafter with
        | inl hsame =>
            rw [hsame]
            cases hheld with
            | inl hlive =>
                rw [hlive] at ht ⊢
                cases ht with
                | inl heq => exact .inl heq.symm
                | inr heq => cases heq
            | inr hgone => exact .inr (by rw [hgone]; rfl)
        | inr hgone => exact .inr (by rw [hgone]; rfl)
  · rw [hframe]
    exact he.frame
  · intro hsame hnew
    have he₁ : e₁ = e := by
      refine he.still (htrace.symm.trans hsame) fun n hn => ?_
      rw [← Option.not_isSome_iff_eq_none, ← hsome n, hnew n hn]
      exact Bool.false_ne_true
    subst he₁
    have hnil := he.wires_eq_nil
    rw [List.flatMap_eq_nil_iff] at hnil
    rw [selectResult_eq hr fun t ht => State.wires_eq_nil_iff.mp (hnil t ht)] at h
    cases h
    rfl

/-- A round leaves a frame with the variables of its results. -/
theorem readRound_touches (hall : Tracks all) {o : ReadOutcome} {result : List State} {res : State}
    (h : readRound P id all e = .ok ((o, result, res), e')) :
    Touches e (result.flatMap State.wires) e' ∧ e'.lastFrame = some res ∧
      res.wires = result.flatMap State.wires ∧ e.trace.length < e'.trace.length := by
  obtain ⟨e₁, e₂, frame, hstart, hrun, hframe, rfl, rfl⟩ := readRound_ok h
  obtain ⟨htouch, hnames, hlen⟩ := roundStart_touches hstart
  obtain ⟨_, he₁⟩ := roundStart_ok hstart
  have heffect := hall hrun
  have hsame : frame = frameOf P id o := by
    cases heffect.frame with
    | inl heq =>
        rw [hframe, he₁] at heq
        exact Option.some.inj heq
    | inr hnone => rw [hframe] at hnone; cases hnone
  obtain ⟨hbound, hsons⟩ := frameOf_unbound P id o
  have hwires : (frame.push result).wires = result.flatMap State.wires := by
    rw [hsame]
    exact wires_push hbound hsons result
  have hboth := htouch.trans heffect.toTouches fun n hn => by rw [hnames] at hn; cases hn
  rw [List.nil_append] at hboth
  refine ⟨⟨hboth.trace, hboth.kept, hboth.fresh, hboth.held⟩, rfl, hwires, ?_⟩
  exact Nat.lt_of_lt_of_le hlen heffect.trace.length_le

/-- Rejected rounds take the frame before away, and leave one of their own. -/
theorem rejects_touches (hall : Tracks all) (h : Relation.ReflTransGen (Rejects P id all) e e') :
    Touches e [] e' ∧ ∀ n ∈ e'.frameNames, n ∈ e.frameNames ∨ e.view n = none := by
  induction h with
  | refl => exact ⟨(Effect.refl e).toTouches, fun n hn => .inl hn⟩
  | tail _ hreject ih =>
      obtain ⟨o, result, res, hround, _⟩ := hreject
      obtain ⟨htouch, hframe, hwires, _⟩ := readRound_touches hall hround
      have hboth := ih.1.trans htouch ih.2
      refine ⟨hboth.mono nofun, fun n hn => .inr ?_⟩
      rw [Env.frameNames, hframe] at hn
      simp only at hn
      rw [State.boundNames_eq_wires, hwires] at hn
      obtain ⟨p, hp, rfl⟩ := List.mem_map.mp hn
      exact hboth.fresh p hp

theorem readAction_effect (hall : Tracks all) (h : readAction P id all e = .ok (s, e')) :
    Effect e s.wires e' ∧ e.trace.length < e'.trace.length := by
  obtain ⟨e₁, o, result, res, e₂, hrejects, hround, _, rfl, rfl⟩ := readAction_ok h
  obtain ⟨hbefore, hnames⟩ := rejects_touches hall hrejects
  obtain ⟨htouch, _, hwires, hlen⟩ := readRound_touches hall hround
  have hboth := hbefore.trans htouch hnames
  rw [List.nil_append, ← hwires] at hboth
  have hs : (if res.isFailValue then res else res.setPacketValue).wires = res.wires := by
    split
    · rfl
    · rw [State.setPacketValue, State.wires_setStateValue]
  have hlonger : e.trace.length < e₂.trace.length :=
    Nat.lt_of_le_of_lt hbefore.trace.length_le hlen
  rw [hs]
  refine ⟨?_, hlonger⟩
  exact {
    trace := hboth.trace
    kept := hboth.kept
    fresh := hboth.fresh
    held := hboth.held
    frame := .inr rfl
    still := by
      intro htrace _
      rw [show e₂.trace = e.trace from htrace] at hlonger
      exact absurd hlonger (lt_irrefl _) }

/-- The results that a finished command keeps. -/
theorem Finished.wires {drops : Bool} {result : List State} (h : Finished drops result e s) :
    ∀ p ∈ s.wires, p ∈ result.flatMap State.wires := by
  rw [State.wires_of_unbound h.plain.unbound]
  cases h.sons with
  | inl hnil => rw [hnil]; nofun
  | inr hkeep =>
      obtain ⟨extra, hsons, hplain⟩ := hkeep
      have hextra : extra.flatMap State.wires = [] := by
        rw [List.flatMap_eq_nil_iff]
        intro r hr
        obtain ⟨hr, _, hrsons⟩ := hplain r hr
        rw [State.wires_of_unbound hr.unbound, hrsons]
        rfl
      rw [hsons, List.flatMap_append, hextra, List.append_nil]
      exact fun p hp => hp

theorem runVariable_effect {result : List State} {e₁ : Env}
    (he : Effect e (result.flatMap State.wires) e₁)
    (h : runVariable P id result e₁ = .ok (s, e')) : Effect e s.wires e' := by
  cases runVariable_ok h with
  | inl hcopy =>
      obtain ⟨var, v, _, _, rfl, rfl⟩ := hcopy
      rw [wires_push rfl rfl]
      exact he
  | inr hcapture =>
      obtain ⟨var, data, start, lenght, hcap, rfl, rfl⟩ := hcapture
      refine (he.trans (bind_effect hcap.unbound _)).mono fun p hp => ?_
      rw [State.wires_eq, State.sons_push] at hp
      cases List.mem_append.mp hp with
      | inl hown =>
          refine List.mem_append_right _ (List.mem_singleton.mpr ?_)
          obtain ⟨n, hn, rfl⟩ := List.mem_map.mp hown
          rw [List.mem_singleton.mp (show n ∈ [var] from hn), State.getStringToSend_eq,
            State.getStringToSend_eq (capturedState P id var data start lenght)]
          rfl
      | inr hsons => exact List.mem_append_left _ hsons

theorem runMemorize_effect {result : List State} {e₁ : Env}
    (he : Effect e (result.flatMap State.wires) e₁)
    (h : runMemorize P id result e₁ = .ok (s, e')) : Effect e s.wires e' := by
  cases runMemorize_ok h with
  | inl hcopy =>
      obtain ⟨var, v, _, _, rfl, rfl⟩ := hcopy
      rw [wires_push rfl rfl]
      exact he
  | inr hbind =>
      obtain ⟨var, t, _, hnone, ht, rfl, rfl⟩ := hbind
      have hboth := he.trans (bind_effect hnone (t.bind var))
      refine hboth.mono fun p hp => ?_
      rw [wires_push rfl rfl] at hp
      obtain ⟨u, hu, hpu⟩ := List.mem_flatMap.mp hp
      cases List.mem_or_eq_of_mem_set hu with
      | inl hold => exact List.mem_append_left _ (List.mem_flatMap.mpr ⟨u, hold, hpu⟩)
      | inr hnew =>
          rw [hnew, State.wires_bind] at hpu
          cases List.mem_cons.mp hpu with
          | inl heq =>
              rw [heq, State.getStringToSend_bind]
              exact List.mem_append_right _ (List.mem_singleton.mpr rfl)
          | inr hmem =>
              exact List.mem_append_left _
                (List.mem_flatMap.mpr ⟨t, List.mem_of_getElem? ht, hmem⟩)

theorem commandActionOn_effect (hall : Tracks all) {numSons : Nat} {c : Command}
    (h : commandActionOn P id name numSons c all e = .ok (s, e')) : Effect e s.wires e' := by
  obtain ⟨_, result, e₁, hrun, hfinish⟩ := commandActionOn_ok h
  have he := hall hrun
  by_cases hv : c = .variableCommand
  · subst hv
    exact runVariable_effect he hfinish
  · by_cases hm : c = .memorizeCommand
    · subst hm
      exact runMemorize_effect he hfinish
    · obtain ⟨rfl, hfin⟩ := finish_ok hv hm hfinish
      exact he.mono hfin.wires

end Actions

/-! ## Runs -/

section Runs

variable {P : Platform} {sel : Nat → Nat}

theorem leafState_wires (kind : LeafKind) (id : Nat) (name : Bytes) :
    (leafState kind id name).wires = [] := by
  rw [State.wires_eq_nil_iff, State.boundNames_eq]
  cases kind <;> rfl

theorem evalSons_tracks {cs : List Composite}
    (h : ∀ c ∈ cs, ∀ {e s e'}, eval P sel c e = .ok (s, e') → Effect e s.wires e') :
    Tracks (evalSons P sel cs) := by
  intro e ss e' hrun
  induction cs generalizing e ss with
  | nil =>
      rw [evalSons, Comp.pure_ok] at hrun
      obtain ⟨rfl, rfl⟩ := hrun
      exact .refl _
  | cons c cs ih =>
      obtain ⟨s, e₁, ss', hs, hss, rfl⟩ := evalSons_cons_ok.mp hrun
      rw [List.flatMap_cons]
      exact (h c List.mem_cons_self hs).trans
        (ih (fun d hd => h d (List.mem_cons_of_mem _ hd)) hss)

theorem evalSonsReturn_tracks {cs : List Composite}
    (h : ∀ c ∈ cs, ∀ {e s e'}, eval P sel c e = .ok (s, e') → Effect e s.wires e') :
    Tracks (evalSonsReturn P sel cs) := by
  intro e ss e' hrun
  induction cs generalizing e ss with
  | nil =>
      rw [evalSonsReturn, Comp.pure_ok] at hrun
      obtain ⟨rfl, rfl⟩ := hrun
      exact .refl _
  | cons c cs ih =>
      obtain ⟨s, e₁, hs, hrest⟩ := evalSonsReturn_cons_ok.mp hrun
      have hc := h c List.mem_cons_self hs
      split at hrest
      · obtain ⟨rfl, rfl⟩ := hrest
        rw [List.flatMap_singleton]
        exact hc
      · obtain ⟨ss', hss, rfl⟩ := hrest
        rw [List.flatMap_cons]
        exact hc.trans (ih (fun d hd => h d (List.mem_cons_of_mem _ hd)) hss)

/-- The effect of a run of a node. -/
theorem eval_effect (c : Composite) {e e' : Env} {s : State} (h : eval P sel c e = .ok (s, e')) :
    Effect e s.wires e' := by
  induction c using Composite.induction generalizing e e' s with
  | h c ih =>
      cases c with
      | leaf kind id name =>
          rw [eval, Comp.pure_ok] at h
          obtain ⟨rfl, rfl⟩ := h
          rw [leafState_wires]
          exact .refl _
      | node kind id name sons =>
          have hall : Tracks (evalSons P sel sons) :=
            evalSons_tracks fun c hc _ _ _ hrun => ih c hc hrun
          have hbrk : Tracks (evalSonsReturn P sel sons) :=
            evalSonsReturn_tracks fun c hc _ _ _ hrun => ih c hc hrun
          rw [eval] at h
          cases ha : strategyOf kind sons with
          | returnAction =>
              rw [ha, runAction] at h
              exact returnAction_effect hbrk h
          | repeatAction =>
              rw [ha, runAction] at h
              exact repeatAction_effect hbrk h
          | injectAction n =>
              rw [ha, runAction] at h
              obtain ⟨result, e₁, hrun, hselect⟩ := injectAction_ok h
              exact selectResult_effect (hall hrun) hselect
          | sendAction socket =>
              rw [ha, runAction] at h
              exact sendAction_effect hall h
          | readAction socket =>
              rw [ha, runAction] at h
              exact (readAction_effect hall h).1
          | command c =>
              rw [ha, runAction] at h
              exact commandActionOn_effect hall h

/-- The effect of a run of sons. -/
theorem evalSons_effect {cs : List Composite} : Tracks (evalSons P sel cs) :=
  evalSons_tracks fun c _ _ _ _ hrun => eval_effect c hrun

theorem evalSonsReturn_effect {cs : List Composite} : Tracks (evalSonsReturn P sel cs) :=
  evalSonsReturn_tracks fun c _ _ _ _ hrun => eval_effect c hrun

end Runs

/-! ## Runs inside a run -/

/-- The trace and the bound variables only grow. -/
structure Env.Before (e e' : Env) : Prop where
  trace : e.trace <+: e'.trace
  bound : ∀ n, (e.view n).isSome → (e'.view n).isSome

theorem Env.Before.refl (e : Env) : e.Before e := ⟨List.prefix_rfl, fun _ h => h⟩

theorem Env.Before.trans {e e₁ e' : Env} (h : e.Before e₁) (h' : e₁.Before e') : e.Before e' :=
  ⟨h.trace.trans h'.trace, fun n hn => h'.bound n (h.bound n hn)⟩

theorem Touches.before {e e' : Env} {ws : List (Bytes × Bytes)} (h : Touches e ws e') :
    e.Before e' := ⟨h.trace, fun _ hn => h.bound hn⟩

section Inside

variable {P : Platform} {sel : Nat → Nat}

theorem evalSons_before {cs : List Composite} {e e' : Env} {ss : List State}
    (h : evalSons P sel cs e = .ok (ss, e')) : e.Before e' :=
  (evalSons_effect h).before

theorem evalSonsReturn_before {cs : List Composite} {e e' : Env} {ss : List State}
    (h : evalSonsReturn P sel cs e = .ok (ss, e')) : e.Before e' :=
  (evalSonsReturn_effect h).before

theorem runTimes_before {cs : List Composite} {id : Nat} {name : Bytes} {n : Nat} {e e' : Env}
    {ss : List State}
    (h : runTimes (returnAction id name (evalSonsReturn P sel cs)) n e = .ok (ss, e')) :
    e.Before e' :=
  (runTimes_effect (returnAction_effect evalSonsReturn_effect) h).before

theorem rejects_before {cs : List Composite} {id : Nat} {e e' : Env}
    (h : Relation.ReflTransGen (Rejects P id (evalSons P sel cs)) e e') : e.Before e' :=
  (rejects_touches evalSons_effect h).1.before

theorem readRound_before {cs : List Composite} {id : Nat} {e e' : Env} {o : ReadOutcome}
    {result : List State} {res : State}
    (h : readRound P id (evalSons P sel cs) e = .ok ((o, result, res), e')) : e.Before e' :=
  (readRound_touches evalSons_effect h).1.before

theorem finish_before {c : Command} {id : Nat} {name : Bytes} {result : List State} {e e' : Env}
    {s : State} (h : c.finish P id name result e = .ok (s, e')) : e.Before e' := by
  by_cases hv : c = .variableCommand
  · subst hv
    obtain ⟨_, _, _, _, rfl, _⟩ | ⟨_, _, _, _, hcap, rfl, _⟩ := runVariable_ok h
    · exact .refl _
    · exact (bind_effect hcap.unbound _).before
  · by_cases hm : c = .memorizeCommand
    · subst hm
      obtain ⟨_, _, _, _, rfl, _⟩ | ⟨_, _, _, hnone, _, rfl, _⟩ := runMemorize_ok h
      · exact .refl _
      · exact (bind_effect hnone _).before
    · rw [(finish_ok hv hm h).1]
      exact .refl _

/-- A run of a son lies inside the run of the node. -/
def Inside (P : Platform) (sel : Nat → Nat) (e : Env) (d : Composite) (ed : Env) (e' : Env) :
    Prop :=
  e.Before ed ∧ ∃ s ed', eval P sel d ed = .ok (s, ed') ∧ ed'.Before e'

theorem ReachesAll.inside {sons : List Composite} {e ed e' : Env} {i : Nat} {d : Composite}
    {ss : List State} (h : ReachesAll P sel sons e i d ed)
    (hrun : evalSons P sel sons e = .ok (ss, e')) : Inside P sel e d ed e' := by
  obtain ⟨pre, post, ss₁, s, ed', ss₂, _, _, hpre, hs, hpost, _⟩ := h.ok hrun
  exact ⟨evalSons_before hpre, s, ed', hs, evalSons_before hpost⟩

theorem ReachesReturn.inside {sons : List Composite} {e ed e' : Env} {i : Nat} {d : Composite}
    {ss : List State} (h : ReachesReturn P sel sons e i d ed)
    (hrun : evalSonsReturn P sel sons e = .ok (ss, e')) : Inside P sel e d ed e' := by
  obtain ⟨pre, post, ss₁, s, ed', _, _, hpre, _, hs, hcont⟩ := h.ok hrun
  refine ⟨evalSonsReturn_before hpre, s, ed', hs, ?_⟩
  split at hcont
  · rw [hcont.2]
    exact .refl _
  · obtain ⟨ss₂, hpost, _⟩ := hcont
    exact evalSonsReturn_before hpost

theorem Inside.mono {e₀ e ed e' e₁ : Env} {d : Composite} (h : Inside P sel e d ed e')
    (hbefore : e₀.Before e) (hafter : e'.Before e₁) : Inside P sel e₀ d ed e₁ := by
  obtain ⟨hd, s, ed', hs, hrest⟩ := h
  exact ⟨hbefore.trans hd, s, ed', hs, hrest.trans hafter⟩

theorem RunsSon.inside {c d : Composite} {e ed e' : Env} {i : Nat} {s : State}
    (h : RunsSon P sel c e i d ed) (hrun : eval P sel c e = .ok (s, e')) :
    Inside P sel e d ed e' := by
  cases h with
  | sequence ha h =>
      rw [eval, strategyOf, ha] at hrun
      obtain ⟨result, _, hsons, _⟩ := returnAction_ok hrun
      exact h.inside hsons
  | send ha h =>
      rw [eval, strategyOf, ha] at hrun
      obtain ⟨result, e₁, hsons, _, rfl⟩ := sendAction_ok hrun
      exact (h.inside hsons).mono (.refl e) (sent_effect _ _).before
  | command ha h =>
      rw [eval, strategyOf, ha] at hrun
      obtain ⟨_, result, e₁, hsons, hfinish⟩ := commandActionOn_ok hrun
      exact (h.inside hsons).mono (.refl e) (finish_before hfinish)
  | read ha hrounds hstart h =>
      rw [eval, strategyOf, ha] at hrun
      obtain ⟨e₃, o', result', res', e₄, hrejects, hround, hgo, _, rfl⟩ := readAction_ok hrun
      obtain ⟨p, e₅, hp, hafter⟩ := readRound_of_rejects hrounds hrejects hround hgo
      obtain ⟨e₂', e₆, frame, hstart', hsons, _, _, rfl⟩ := readRound_ok hp
      rw [hstart] at hstart'
      cases hstart'
      have hend : ({ e₆ with lastFrame := some p.2.2 } : Env).Before e₄ := by
        cases hafter with
        | inl heq => rw [heq]; exact .refl _
        | inr hmore => exact (rejects_before hmore).trans (readRound_before hround)
      refine (h.inside hsons).mono ?_ ⟨hend.trace, hend.bound⟩
      exact (rejects_before hrounds).trans (roundStart_touches hstart).1.before
  | alternative h =>
      rw [eval, strategyOf] at hrun
      obtain ⟨result, e₁, hsons, hselect⟩ := injectAction_ok hrun
      obtain ⟨htrace, _, hsome⟩ := selectResult_rest hselect
      exact (h.inside hsons).mono (.refl e)
        ⟨htrace ▸ List.prefix_rfl, fun n hn => (hsome n).trans hn⟩
  | copy hk hcopies h =>
      rw [eval, strategyOf] at hrun
      obtain ⟨results, hruns, _⟩ := repeatAction_ok hrun
      obtain ⟨s', e₂, rest, hcopy, hrest, _⟩ := runTimes_ok hk hcopies hruns
      obtain ⟨result, _, hsons, _⟩ := returnAction_ok hcopy
      exact (h.inside hsons).mono (runTimes_before hcopies) (runTimes_before hrest)

theorem Visits.inside {c x : Composite} {e ex e' : Env} {s : State} (h : Visits P sel c e x ex)
    (hrun : eval P sel c e = .ok (s, e')) : Inside P sel e x ex e' := by
  induction h generalizing s e' with
  | refl => exact ⟨.refl _, s, e', hrun, .refl _⟩
  | son hson _ ih =>
      obtain ⟨hbefore, s', ed', hd, hafter⟩ := hson.inside hrun
      exact (ih hd).mono hbefore hafter

end Inside

end Stress

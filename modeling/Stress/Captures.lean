import Stress.ReadLoop

/-!
# Where captured variables come from

A `Variable` among the sons of a read captures bytes of the packet of its round.  Its state
goes up into the frame of the round unless a node on the way takes it out.  An alternation
deletes the results that it does not select.  `Sum`, `CeilDivide` and `Repeat` drop the
results of their sons, and nothing deletes those.  The frame of a rejected round is deleted
with the states in it, and the next round keeps the variables.

So what becomes of a capture follows from the nodes between the read and the `Variable`
(`VisitsAs.after`), and whether its variable stands for bytes of the packet returned from
that and the round it is made in (`captures_from_returned_iff`).
-/

namespace Stress

/-! ## What becomes of a state -/

/-- What becomes of the state of a node until a node around it returns. -/
inductive Fate where
  /-- It is in the state returned. -/
  | kept
  /-- It has been deleted. -/
  | deleted
  /-- No state holds it, and nothing deletes it. -/
  | dropped
deriving DecidableEq

/-- The outer node decides about a state that comes up to it. -/
def Fate.within (outer : Fate) : Fate → Fate
  | .kept => outer
  | f => f

@[simp] theorem Fate.kept_within (f : Fate) : Fate.kept.within f = f := by cases f <;> rfl

/-- What a node does with the result of its son at place `i`. -/
def sonFate (sel : Nat → Nat) : Composite → Nat → Fate
  | .node .orComposite id _ _, i => if i = sel id then .kept else .deleted
  | .node .composite _ _ sons, _ =>
      match factoryAction sons with
      | .command c => if c.drops then .dropped else .kept
      | _ => .kept
  | _, _ => .kept

/-- The run of a node from `e` runs the node `x` from `ex`, and `f` is what becomes of the
state of `x` until the outer node returns. -/
inductive VisitsAs (P : Platform) (sel : Nat → Nat) :
    Fate → Composite → Env → Composite → Env → Prop where
  | refl {c : Composite} {e : Env} : VisitsAs P sel .kept c e c e
  | son {f : Fate} {c d x : Composite} {e ed ex : Env} {i : Nat} (h : RunsSon P sel c e i d ed)
      (hx : VisitsAs P sel f d ed x ex) :
      VisitsAs P sel ((sonFate sel c i).within f) c e x ex

theorem VisitsAs.visits {P : Platform} {sel : Nat → Nat} {f : Fate} {c x : Composite} {e ex : Env}
    (h : VisitsAs P sel f c e x ex) : Visits P sel c e x ex := by
  induction h with
  | refl => exact .refl
  | son h _ ih => exact .son h ih

/-- A variable and the states that a run returns, whose names are `names`, after the state
that the variable has been bound to has had the fate `f`. -/
structure Fate.After (f : Fate) (var bytes : Bytes) (names : List Bytes) (e : Env) : Prop where
  mem : var ∈ names ↔ f = .kept
  view : e.view var = some (if f = .deleted then none else some bytes)

theorem Fate.After.bound {f : Fate} {var bytes : Bytes} {names : List Bytes} {e : Env}
    (h : f.After var bytes names e) : (e.view var).isSome := by
  rw [h.view]
  rfl

/-! ## Other results -/

section Names

variable {e ed ed' e' : Env} {ss ss₁ ss₂ : List State} {s : State} {var bytes : Bytes} {f : Fate}

theorem mem_names_iff : var ∈ ss.flatMap State.boundNames ↔
    ∃ bytes, (var, bytes) ∈ ss.flatMap State.wires := by
  simp only [List.mem_flatMap, State.boundNames_eq_wires, List.mem_map]
  constructor
  · rintro ⟨s, hs, p, hp, rfl⟩
    exact ⟨p.2, s, hs, hp⟩
  · rintro ⟨bytes, s, hs, hp⟩
    exact ⟨s, hs, _, hp, rfl⟩

/-- A variable that is unbound after a run points into none of its results. -/
theorem Effect.notMem_of_unbound (h : Effect e (ss.flatMap State.wires) e')
    (hnone : e'.view var = none) : var ∉ ss.flatMap State.boundNames := by
  intro hmem
  obtain ⟨bytes, hwire⟩ := mem_names_iff.mp hmem
  obtain hlive | hgone := h.held _ hwire
  · rw [hnone] at hlive
    cases hlive
  · rw [hnone] at hgone
    cases hgone

/-- Nor does one that has been bound before. -/
theorem Effect.notMem_of_bound (h : Effect e (ss.flatMap State.wires) e')
    (hbound : (e.view var).isSome) : var ∉ ss.flatMap State.boundNames := by
  intro hmem
  obtain ⟨bytes, hwire⟩ := mem_names_iff.mp hmem
  rw [h.fresh _ hwire] at hbound
  cases hbound

/-- Without a variable in the last frame every bound one stays. -/
theorem Effect.view_eq {ws : List (Bytes × Bytes)} (h : Effect e ws e')
    (hnames : e.frameNames = []) (hbound : (e.view var).isSome) : e'.view var = e.view var := by
  obtain hkept | ⟨hmem, _⟩ := h.kept var hbound
  · exact hkept
  · rw [hnames] at hmem
    cases hmem

theorem Effect.frameNames_nil {ws : List (Bytes × Bytes)} (h : Effect e ws e')
    (hnames : e.frameNames = []) : e'.frameNames = [] := by
  rw [List.eq_nil_iff_forall_not_mem]
  intro n hn
  have hmem := h.frameNames hn
  rw [hnames] at hmem
  cases hmem

theorem Effect.lastFrame_eq {ws : List (Bytes × Bytes)} (h : Effect e ws e') {frame : State}
    (hframe : e'.lastFrame = some frame) : e.lastFrame = some frame := by
  obtain hsame | hnone := h.frame
  · rw [← hsame, hframe]
  · rw [hnone] at hframe
    cases hframe

/-- The results of a run of sons, around the one at place `i`. -/
structure Fate.Among (f : Fate) (var bytes : Bytes) (i : Nat) (result : List State) (e : Env) :
    Prop where
  parts : ∃ ss₁ s ss₂, result = ss₁ ++ s :: ss₂ ∧ ss₁.length = i ∧
    var ∉ ss₁.flatMap State.boundNames ∧ var ∉ ss₂.flatMap State.boundNames ∧
    f.After var bytes s.boundNames e

theorem Fate.Among.after {i : Nat} (h : f.Among var bytes i ss e) :
    f.After var bytes (ss.flatMap State.boundNames) e := by
  obtain ⟨ss₁, s, ss₂, rfl, _, hpre, hpost, hs⟩ := h.parts
  refine ⟨?_, hs.view⟩
  rw [List.flatMap_append, List.flatMap_cons, List.mem_append, List.mem_append, ← hs.mem]
  tauto

/-- What the other sons do leaves the capture alone. -/
theorem Fate.After.among (h : f.After var bytes s.boundNames ed')
    (hpre : Effect e (ss₁.flatMap State.wires) ed) (hnone : ed.view var = none)
    (hpost : Effect ed' (ss₂.flatMap State.wires) e') (hnames : ed'.frameNames = []) :
    f.Among var bytes ss₁.length (ss₁ ++ s :: ss₂) e' where
  parts := ⟨ss₁, s, ss₂, rfl, rfl, hpre.notMem_of_unbound hnone, hpost.notMem_of_bound h.bound,
    h.mem, (hpost.view_eq hnames h.bound).trans h.view⟩

/-- The names after one result has been replaced. -/
theorem mem_names_set {k : Nat} {t u : State} (hk : ss[k]? = some t)
    (hsame : var ∈ u.boundNames ↔ var ∈ t.boundNames) :
    var ∈ (ss.set k u).flatMap State.boundNames ↔ var ∈ ss.flatMap State.boundNames := by
  induction ss generalizing k with
  | nil => cases hk
  | cons r rs ih =>
      cases k with
      | zero =>
          cases hk
          rw [List.set_cons_zero, List.flatMap_cons, List.flatMap_cons, List.mem_append,
            List.mem_append, hsame]
      | succ k =>
          rw [List.set_cons_succ, List.flatMap_cons, List.flatMap_cons, List.mem_append,
            List.mem_append, ih hk]

/-- Of a result that is not selected all names are deleted. -/
theorem mem_erased_iff {value : Nat} (hpre : var ∉ ss₁.flatMap State.boundNames)
    (hpost : var ∉ ss₂.flatMap State.boundNames) (hvalue : ss₁.length ≠ value) :
    var ∈ ((ss₁ ++ s :: ss₂).eraseIdx value).flatMap State.boundNames ↔ var ∈ s.boundNames := by
  have herase : ∀ {ss : List State} (k : Nat), var ∉ ss.flatMap State.boundNames →
      var ∉ (ss.eraseIdx k).flatMap State.boundNames := by
    intro ss k h hmem
    obtain ⟨t, ht, hn⟩ := List.mem_flatMap.mp hmem
    exact h (List.mem_flatMap.mpr ⟨t, List.mem_of_mem_eraseIdx ht, hn⟩)
  rw [List.eraseIdx_append]
  split
  · have hleft := herase value hpre
    rw [List.flatMap_append, List.flatMap_cons, List.mem_append, List.mem_append]
    tauto
  · obtain ⟨k, hk⟩ := Nat.exists_eq_succ_of_ne_zero (n := value - ss₁.length) (by omega)
    have hright := herase k hpost
    rw [hk, List.eraseIdx_cons_succ, List.flatMap_append, List.flatMap_cons, List.mem_append,
      List.mem_append]
    tauto

/-- A selection deletes the results that it does not return. -/
theorem Fate.Among.select {e₁ : Env} {i value : Nat} {result : List State}
    (h : f.Among var bytes i result e₁) (he : Effect e (result.flatMap State.wires) e₁)
    (hselect : selectResult value result e₁ = .ok (s, e')) :
    ((if i = value then .kept else .deleted : Fate).within f).After var bytes s.boundNames e' := by
  obtain ⟨r, hr, hs, rfl⟩ := selectResult_ok hselect
  obtain ⟨ss₁, t, ss₂, rfl, rfl, hpre, hpost, ht⟩ := h.parts
  have hnames : s.boundNames = r.boundNames := by
    rw [hs, State.boundNames_setName, State.setFaultValue, State.boundNames_setStateValue]
  by_cases hvalue : ss₁.length = value
  · subst hvalue
    have hrt : r = t := by
      rw [List.getElem?_append_right (le_refl _), Nat.sub_self] at hr
      exact (Option.some.inj hr).symm
    subst hrt
    rw [if_pos rfl, Fate.kept_within, hnames]
    refine ⟨ht.mem, ?_⟩
    have hrest : var ∉ ((ss₁ ++ r :: ss₂).eraseIdx ss₁.length).flatMap State.boundNames := by
      rw [List.eraseIdx_append_of_length_le (le_refl _), Nat.sub_self, List.eraseIdx_cons_zero,
        List.flatMap_append, List.mem_append]
      exact not_or_intro hpre hpost
    rw [Env.view_refresh, view_foldl_delete, if_neg hrest]
    cases hlookup : s.bindings.lookup var with
    | none => exact ht.view
    | some u =>
        -- The state that the variable follows is the one captured.
        obtain ⟨l₁, l₂, hl, _⟩ := List.lookup_eq_some_iff.mp hlookup
        have hwire : (var, u.getStringToSend) ∈ r.wires := by
          have hsame : s.wires = r.wires := by
            rw [hs, State.wires_setName, State.setFaultValue, State.wires_setStateValue]
          rw [← hsame, State.wires, hl]
          simp
        have hkept : f = .kept := by
          rw [← ht.mem, State.boundNames_eq_wires]
          exact List.mem_map_of_mem hwire
        have hheld := he.held _ (List.mem_flatMap.mpr
          ⟨r, List.mem_append_right _ List.mem_cons_self, hwire⟩)
        rw [ht.view, hkept] at hheld ⊢
        obtain hlive | hgone := hheld
        · exact hlive.symm
        · cases hgone
  · rw [if_neg hvalue]
    have hother : var ∉ r.boundNames := by
      intro hmem
      rw [List.getElem?_append] at hr
      split at hr
      · exact hpre (List.mem_flatMap.mpr ⟨r, List.mem_of_getElem? hr, hmem⟩)
      · obtain ⟨k, hk⟩ := Nat.exists_eq_succ_of_ne_zero (n := value - ss₁.length) (by omega)
        rw [hk, List.getElem?_cons_succ] at hr
        exact hpost (List.mem_flatMap.mpr ⟨r, List.mem_of_getElem? hr, hmem⟩)
    have hlookup : s.bindings.lookup var = none := by
      rw [List.lookup_eq_none_iff]
      intro p hp
      rw [bne_iff_ne]
      rintro rfl
      exact hother (hnames ▸ List.mem_map_of_mem hp)
    have hdelete := (mem_erased_iff (s := t) hpre hpost hvalue).trans ht.mem
    rw [hnames]
    refine ⟨iff_of_false hother ?_, ?_⟩
    · cases f <;> exact Fate.noConfusion
    · rw [Env.view_refresh, hlookup, view_foldl_delete, ht.view]
      by_cases hkept : f = .kept
      · rw [if_pos (hdelete.mpr hkept), hkept]
        rfl
      · rw [if_neg (mt hdelete.mp hkept)]
        cases f with
        | kept => exact absurd rfl hkept
        | deleted => rfl
        | dropped => rfl

end Names

/-! ## Captures -/

section Captures

variable {P : Platform} {sel : Nat → Nat} {id i : Nat} {name : Bytes} {sons : List Composite}
  {c d x : Composite} {e ed ex e' : Env} {s frame : State} {result : List State}
  {var bytes data : Bytes} {start lenght : Nat} {f : Fate}

/-- The run of the node `x` from `ex` is one of a `Variable` that captures `lenght` bytes of
`data` from `start` on. -/
structure CapturesAt (P : Platform) (sel : Nat → Nat) (x : Composite) (ex : Env)
    (var data : Bytes) (start lenght : Nat) : Prop where
  command : ∃ id name sons, x = .node .composite id name sons ∧
    factoryAction sons = .command .variableCommand
  captures : CapturesFrom P sel x ex var data start lenght

theorem Env.Before.unbound (h : e.Before e') (hnone : e'.view var = none) : e.view var = none := by
  by_contra hbound
  have hsome := h.bound var (Option.isSome_iff_ne_none.mpr hbound)
  rw [hnone] at hsome
  cases hsome

theorem CapturesAt.unbound (h : CapturesAt P sel x ex var data start lenght) :
    ex.view var = none := by
  obtain ⟨result, e₁, hrun, hcap⟩ := h.captures
  refine (evalSons_before hrun).unbound ?_
  rw [Env.view, hcap.unbound]
  rfl

theorem VisitsAs.unbound (h : VisitsAs P sel f c e x ex)
    (hcap : CapturesAt P sel x ex var data start lenght) (hrun : eval P sel c e = .ok (s, e')) :
    e.view var = none :=
  (h.visits.inside hrun).1.unbound hcap.unbound

/-- The run of sons around one of them. -/
structure SonRun (P : Platform) (sel : Nat → Nat) (e : Env) (i : Nat) (d : Composite) (ed : Env)
    (result : List State) (e' : Env) : Prop where
  parts : ∃ ss₁ s ed' ss₂, result = ss₁ ++ s :: ss₂ ∧ ss₁.length = i ∧
    Effect e (ss₁.flatMap State.wires) ed ∧ eval P sel d ed = .ok (s, ed') ∧
    Effect ed' (ss₂.flatMap State.wires) e'

theorem ReachesAll.sonRun (h : ReachesAll P sel sons e i d ed)
    (hrun : evalSons P sel sons e = .ok (result, e')) : SonRun P sel e i d ed result e' := by
  obtain ⟨pre, post, ss₁, s, ed', ss₂, rfl, rfl, hpre, hs, hpost, rfl⟩ := h.ok hrun
  exact ⟨ss₁, s, ed', ss₂, rfl, evalSons_length hpre, evalSons_effect hpre, hs,
    evalSons_effect hpost⟩

theorem ReachesReturn.sonRun (h : ReachesReturn P sel sons e i d ed)
    (hrun : evalSonsReturn P sel sons e = .ok (result, e')) :
    ∃ j, SonRun P sel e j d ed result e' := by
  obtain ⟨pre, post, ss₁, s, ed', rfl, rfl, hpre, hok, hs, hcont⟩ := h.ok hrun
  refine ⟨ss₁.length, ?_⟩
  split at hcont
  · obtain ⟨rfl, rfl⟩ := hcont
    exact ⟨ss₁, s, _, [], rfl, rfl, evalSonsReturn_effect hpre, hs, .refl _⟩
  · obtain ⟨ss₂, hpost, rfl⟩ := hcont
    exact ⟨ss₁, s, ed', ss₂, rfl, rfl, evalSonsReturn_effect hpre, hs, evalSonsReturn_effect hpost⟩

/-- What is known of a son after its run is known of the results of all sons. -/
theorem SonRun.among (h : SonRun P sel e i d ed result e') (hnames : e.frameNames = [])
    (hframe : e'.lastFrame = some frame)
    (hnone : ∀ {s ed'}, eval P sel d ed = .ok (s, ed') → ed.view var = none)
    (hson : ∀ {s ed'}, eval P sel d ed = .ok (s, ed') → ed.frameNames = [] →
      ed'.lastFrame = some frame →
      frame.data.rawValue = some data ∧ f.After var bytes s.boundNames ed') :
    frame.data.rawValue = some data ∧ f.Among var bytes i result e' := by
  obtain ⟨ss₁, s, ed', ss₂, rfl, rfl, hpre, hs, hpost⟩ := h.parts
  have hed := hpre.frameNames_nil hnames
  obtain ⟨hdata, hafter⟩ := hson hs hed (hpost.lastFrame_eq hframe)
  exact ⟨hdata, hafter.among hpre (hnone hs) hpost ((eval_effect d hs).frameNames_nil hed)⟩

/-! ## What the nodes make of a capture -/

theorem Finished.boundNames {drops : Bool} (h : Finished drops result e s) :
    s.boundNames = if drops then [] else result.flatMap State.boundNames := by
  rw [State.boundNames_eq, h.plain.unbound, List.nil_append]
  cases drops with
  | true => rw [h.dropped rfl]; rfl
  | false =>
      obtain ⟨extra, hsons, hplain⟩ := h.kept rfl
      have hextra : extra.flatMap State.boundNames = [] := by
        rw [List.flatMap_eq_nil_iff]
        intro r hr
        obtain ⟨hr, _, hrsons⟩ := hplain r hr
        rw [State.boundNames_eq, hr.unbound, hrsons]
        rfl
      rw [hsons, List.flatMap_append, hextra, List.append_nil]
      rfl

/-- A binding of another variable. -/
theorem Fate.After.bind {names : List Bytes} (h : f.After var bytes names e) {other : Bytes}
    (hother : e.vars.lookup other = none) (b : Binding) :
    var ≠ other ∧ Env.view { e with vars := (other, b) :: e.vars } var = e.view var := by
  have hne : var ≠ other := by
    rintro rfl
    have hbound := h.bound
    rw [Env.view, hother] at hbound
    cases hbound
  refine ⟨hne, ?_⟩
  rw [Env.view, List.lookup_cons, beq_false_of_ne hne, Env.view]

theorem Fate.After.finish {c : Command}
    (h : f.After var bytes (result.flatMap State.boundNames) e)
    (hfinish : c.finish P id name result e = .ok (s, e')) :
    ((if c.drops then .dropped else .kept : Fate).within f).After var bytes s.boundNames e' := by
  by_cases hv : c = .variableCommand
  · subst hv
    rw [show Command.variableCommand.drops = false from rfl, if_neg Bool.false_ne_true,
      Fate.kept_within]
    obtain ⟨_, v, _, _, rfl, rfl⟩ | ⟨other, data, start, lenght, hcap, rfl, rfl⟩ :=
      runVariable_ok hfinish
    · rw [State.boundNames_push]
      exact h
    · obtain ⟨hne, hview⟩ := h.bind hcap.unbound (.live (capturedState P id other data start lenght))
      refine ⟨?_, hview.trans h.view⟩
      rw [State.boundNames_push, List.mem_append, h.mem]
      exact or_iff_right fun hmem => hne (List.mem_singleton.mp hmem)
  · by_cases hm : c = .memorizeCommand
    · subst hm
      rw [show Command.memorizeCommand.drops = false from rfl, if_neg Bool.false_ne_true,
        Fate.kept_within]
      obtain ⟨_, v, _, _, rfl, rfl⟩ | ⟨other, t, _, hnone, ht, rfl, rfl⟩ := runMemorize_ok hfinish
      · rw [State.boundNames_push]
        exact h
      · obtain ⟨hne, hview⟩ := h.bind hnone (.live (t.bind other))
        refine ⟨?_, hview.trans h.view⟩
        rw [← h.mem, State.boundNames_push]
        refine mem_names_set ht ?_
        rw [State.boundNames_eq_wires, State.wires_bind, State.boundNames_eq_wires, List.map_cons]
        exact List.mem_cons.trans (or_iff_right hne)
    · obtain ⟨rfl, hfin⟩ := finish_ok hv hm hfinish
      rw [hfin.boundNames]
      cases c.drops with
      | false => exact (Fate.kept_within f).symm ▸ h
      | true =>
          refine ⟨iff_of_false (List.not_mem_nil) ?_, ?_⟩
          · cases f <;> exact Fate.noConfusion
          · rw [h.view]
            cases f <;> rfl

theorem names_push {t : State} (hbound : t.data.boundAs = []) (hsons : t.sons = [])
    (result : List State) : (t.push result).boundNames = result.flatMap State.boundNames := by
  rw [State.boundNames_push, State.boundNames_eq, hbound, hsons]
  rfl

theorem frame_rule : RunRule fun e e' => e'.lastFrame = e.lastFrame where
  refl _ := rfl
  trans h h' := h'.trans h
  vars _ _ := rfl
  sent _ _ := rfl

/-- What a run makes of a capture in it.  The capture is one of the last frame, unless a read
has taken that away. -/
theorem VisitsAs.after (h : VisitsAs P sel f c e x ex)
    (hcap : CapturesAt P sel x ex var data start lenght) (hrun : eval P sel c e = .ok (s, e'))
    (hnames : e.frameNames = []) (hframe : e'.lastFrame = some frame) :
    frame.data.rawValue = some data ∧
      f.After var ((data.drop start).take lenght) s.boundNames e' := by
  induction h generalizing s e' with
  | refl =>
      obtain ⟨id, name, sons, rfl, hcommand⟩ := hcap.command
      obtain ⟨result, e₁, _, hcaptures, rfl, rfl⟩ := hcap.captures.eval_ok hcommand hrun
      obtain ⟨f, hf, hdata⟩ := hcaptures.frame
      rw [show e₁.lastFrame = some frame from hframe] at hf
      cases hf
      refine ⟨hdata, ⟨iff_of_true ?_ rfl, view_captured P id var data start lenght e₁⟩⟩
      rw [State.boundNames_push]
      exact List.mem_append_left _ List.mem_cons_self
  | @son f c d x e ed ex i hson hx ih =>
      have hafter : ∀ {s ed'}, eval P sel d ed = .ok (s, ed') → ed.frameNames = [] →
          ed'.lastFrame = some frame → frame.data.rawValue = some data ∧
            f.After var ((data.drop start).take lenght) s.boundNames ed' :=
        fun hs hed hed' => ih hcap hs hed hed'
      have hnone : ∀ {s ed'}, eval P sel d ed = .ok (s, ed') → ed.view var = none :=
        fun hs => hx.unbound hcap hs
      cases hson with
      | sequence ha hreach =>
          rw [eval, strategyOf, ha] at hrun
          obtain ⟨result, _, hsons, _, rfl⟩ := returnAction_ok hrun
          obtain ⟨_, hson⟩ := hreach.sonRun hsons
          obtain ⟨hdata, hamong⟩ := hson.among hnames hframe hnone hafter
          simp only [sonFate, ha, Fate.kept_within]
          rw [names_push (by split <;> rfl) (by split <;> rfl)]
          exact ⟨hdata, hamong.after⟩
      | send ha hreach =>
          rw [eval, strategyOf, ha] at hrun
          obtain ⟨result, e₁, hsons, rfl, rfl⟩ := sendAction_ok hrun
          obtain ⟨hdata, hamong⟩ := (hreach.sonRun hsons).among hnames hframe hnone hafter
          simp only [sonFate, ha, Fate.kept_within]
          rw [sentState, State.setPacketValue, State.boundNames_setStateValue,
            names_push (by split <;> rfl) (by split <;> rfl)]
          exact ⟨hdata, hamong.after.mem, hamong.after.view⟩
      | @command _ _ _ _ _ _ _ c ha hreach =>
          rw [eval, strategyOf, ha] at hrun
          obtain ⟨_, result, e₁, hsons, hfinish⟩ := commandActionOn_ok hrun
          have hframe₁ : e₁.lastFrame = some frame := (frame_rule.finish hfinish).symm.trans hframe
          obtain ⟨hdata, hamong⟩ := (hreach.sonRun hsons).among hnames hframe₁ hnone hafter
          simp only [sonFate, ha]
          exact ⟨hdata, hamong.after.finish hfinish⟩
      | read ha _ _ _ =>
          rw [eval, strategyOf, ha] at hrun
          obtain ⟨_, _, _, _, _, _, _, _, _, rfl⟩ := readAction_ok hrun
          cases hframe
      | alternative hreach =>
          rw [eval, strategyOf] at hrun
          obtain ⟨result, e₁, hsons, hselect⟩ := injectAction_ok hrun
          have hframe₁ : e₁.lastFrame = some frame :=
            (selectResult_rest hselect).2.1.symm.trans hframe
          obtain ⟨hdata, hamong⟩ := (hreach.sonRun hsons).among hnames hframe₁ hnone hafter
          exact ⟨hdata, hamong.select (evalSons_effect hsons) hselect⟩
      | copy hk hcopies hreach =>
          rw [eval, strategyOf] at hrun
          obtain ⟨results, hruns, rfl⟩ := repeatAction_ok hrun
          obtain ⟨s', e₂, rest, hcopy, hrest, rfl⟩ := runTimes_ok hk hcopies hruns
          obtain ⟨result, _, hsons, _, rfl⟩ := returnAction_ok hcopy
          have hpre := runTimes_effect (returnAction_effect evalSonsReturn_effect) hcopies
          have hpost := runTimes_effect (returnAction_effect evalSonsReturn_effect) hrest
          have hmid := hpre.frameNames_nil hnames
          obtain ⟨_, hson⟩ := hreach.sonRun hsons
          obtain ⟨hdata, hamong⟩ := hson.among hmid (hpost.lastFrame_eq hframe) hnone hafter
          obtain ⟨_, _, _, _, _, _, hbefore, hs, _⟩ := hson.parts
          refine ⟨hdata, ?_⟩
          simp only [sonFate, Fate.kept_within]
          rw [names_push rfl rfl]
          refine (Fate.After.among ?_ hpre (hbefore.unbound (hnone hs)) hpost ?_).after
          · rw [names_push (by split <;> rfl) (by split <;> rfl)]
            exact hamong.after
          · exact (evalSonsReturn_effect hsons).frameNames_nil hmid

end Captures

/-! ## Captures of a read -/

/-- The bytes of a packet. -/
def ReadOutcome.bytes (o : ReadOutcome) : Bytes := o.data.take o.n.toNat

section Reads

variable {P : Platform} {sel : Nat → Nat} {id : Nat} {name : Bytes} {sons : List Composite}
  {e e₁ e₂ e₃ e' : Env} {s res : State} {o : ReadOutcome} {result : List State}
  {var bytes data : Bytes} {start lenght : Nat} {f : Fate}

/-- The loop of the read comes from one round to another. -/
abbrev Comes (P : Platform) (sel : Nat → Nat) (id : Nat) (sons : List Composite) :
    Env → Env → Prop := Relation.ReflTransGen (Rejects P id (evalSons P sel sons))

/-- No son fails in the round from `e`, which takes the packet `o`. -/
def Accepts (P : Platform) (sel : Nat → Nat) (id : Nat) (sons : List Composite) (e : Env)
    (o : ReadOutcome) : Prop :=
  ∃ result res e', readRound P id (evalSons P sel sons) e = .ok ((o, result, res), e') ∧
    thereIsAFail result = false

/-- The sons capture a variable in the round from `e`. -/
structure RoundCapture (P : Platform) (sel : Nat → Nat) (id : Nat) (sons : List Composite)
    (e : Env) (f : Fate) (var data : Bytes) (start lenght : Nat) : Prop where
  visited : ∃ o e₁ i d ed x ex, roundStart P id e = .ok (o, e₁) ∧
    ReachesAll P sel sons e₁ i d ed ∧ VisitsAs P sel f d ed x ex ∧
    CapturesAt P sel x ex var data start lenght

/-- What a round makes of a capture in it. -/
theorem RoundCapture.after (h : RoundCapture P sel id sons e f var data start lenght)
    (hround : readRound P id (evalSons P sel sons) e = .ok ((o, result, res), e')) :
    (frameOf P id o).data.rawValue = some data ∧
      f.After var ((data.drop start).take lenght) e'.frameNames e' := by
  obtain ⟨o', e₁, i, d, ed, x, ex, hstart, hreach, hx, hcap⟩ := h.visited
  obtain ⟨e₁', e₂, frame, hstart', hrun, hframe, rfl, rfl⟩ := readRound_ok hround
  rw [hstart] at hstart'
  cases hstart'
  have hsame : frame = frameOf P id o := by
    have hlast := (evalSons_effect hrun).lastFrame_eq hframe
    rw [(roundStart_ok hstart).2] at hlast
    exact (Option.some.inj hlast).symm
  obtain ⟨hdata, hamong⟩ := (hreach.sonRun hrun).among (roundStart_touches hstart).2.1 hframe
    (fun hs => hx.unbound hcap hs) (fun hs hed hed' => hx.after hcap hs hed hed')
  subst hsame
  obtain ⟨hbound, hsons⟩ := frameOf_unbound P id o
  refine ⟨hdata, ?_, hamong.after.view⟩
  change var ∈ ((frameOf P id o).push result).boundNames ↔ _
  rw [names_push hbound hsons]
  exact hamong.after.mem

/-- The variables of the last frame have been bound in the round. -/
theorem readRound_fresh (hround : readRound P id (evalSons P sel sons) e = .ok ((o, result, res), e'))
    (hmem : var ∈ e'.frameNames) : e.view var = none := by
  obtain ⟨htouch, hlast, hwires, _⟩ := readRound_touches evalSons_effect hround
  rw [Env.frameNames, hlast] at hmem
  change var ∈ res.boundNames at hmem
  rw [State.boundNames_eq_wires, hwires] at hmem
  obtain ⟨p, hp, rfl⟩ := List.mem_map.mp hmem
  exact htouch.fresh p hp

/-- The next round deletes the states in the frame. -/
theorem Fate.After.next (h : f.After var bytes e.frameNames e)
    (hround : readRound P id (evalSons P sel sons) e = .ok ((o, result, res), e')) :
    e'.view var = some (if f = .dropped then some bytes else none) := by
  obtain ⟨e₁, e₂, _, hstart, hrun, _, _, rfl⟩ := readRound_ok hround
  obtain ⟨htouch, hnames, _⟩ := roundStart_touches hstart
  have hview : e₁.view var = some (if f = .dropped then some bytes else none) := by
    cases f with
    | kept => exact roundStart_gone hstart (h.mem.mpr rfl) h.bound
    | deleted => exact htouch.gone h.view
    | dropped =>
        obtain hkept | ⟨hmem, _⟩ := htouch.kept var h.bound
        · exact hkept.trans h.view
        · exact absurd (h.mem.mp hmem) Fate.noConfusion
  exact ((evalSons_effect hrun).view_eq hnames (htouch.bound h.bound)).trans hview

/-- The rounds after that leave the variable alone. -/
theorem Fate.After.later (h : f.After var bytes e.frameNames e) (hcome : Comes P sel id sons e e₁)
    (hround : readRound P id (evalSons P sel sons) e₁ = .ok ((o, result, res), e₂)) :
    e₂.view var = some (if f = .dropped then some bytes else none) := by
  obtain rfl | ⟨e₃, ⟨o', result', res', hnext, _⟩, hmore⟩ := hcome.cases_head
  · exact h.next hround
  · obtain ⟨htouch, hnames⟩ := rejects_touches evalSons_effect hmore
    have hboth := htouch.trans (readRound_touches evalSons_effect hround).1 hnames
    have hview := h.next hnext
    obtain hkept | ⟨hmem, _⟩ := hboth.kept var (by rw [hview]; rfl)
    · exact hkept.trans hview
    · have hbound := h.bound
      rw [readRound_fresh hnext hmem] at hbound
      cases hbound

/-! ## The packet returned -/

/-- The loop comes to a round in which no son fails, and `s` holds the packet of that round
with the results of the sons for it.  The packets before are those of the rounds before, in
each of which a son has failed. -/
structure HoldsFirst (P : Platform) (sel : Nat → Nat) (id : Nat) (sons : List Composite)
    (e : Env) (s : State) : Prop where
  found : ∃ rejected e₁ o result res e₂, Comes P sel id sons e e₁ ∧
    received e₁.trace = received e.trace ++ rejected ∧
    readRound P id (evalSons P sel sons) e₁ = .ok ((o, result, res), e₂) ∧
    thereIsAFail result = false ∧ e.reads = rejected ++ o :: e₂.reads ∧
    s.sons = result ∧ s.data.rawValue = some o.bytes

/-- Every variable captured in the read stands for bytes of the packet returned, at the
offset and with the length of the capture.  Only an unbound variable is captured. -/
def BindsReturned (P : Platform) (sel : Nat → Nat) (id : Nat) (sons : List Composite)
    (e : Env) (s : State) (e' : Env) : Prop :=
  ∀ e₁ f var data start lenght, Comes P sel id sons e e₁ →
    RoundCapture P sel id sons e₁ f var data start lenght → ∃ packet,
      s.data.rawValue = some packet ∧ e'.view var = some (some ((packet.drop start).take lenght))

/-- What a capture in the round from `e₁` needs.  A state that is in the frame stays only if
the round accepts its packet.  One that has been dropped stays, but the packet returned must
have the same bytes at its place. -/
def Fate.Lasts (f : Fate) (P : Platform) (sel : Nat → Nat) (id : Nat) (sons : List Composite)
    (e e₁ : Env) (data : Bytes) (start lenght : Nat) : Prop :=
  match f with
  | .kept => ∃ o, Accepts P sel id sons e₁ o
  | .deleted => False
  | .dropped => ∀ e₂ o, Comes P sel id sons e e₂ → Accepts P sel id sons e₂ o →
      (o.bytes.drop start).take lenght = (data.drop start).take lenght

/-- Every capture in the read lasts. -/
def CapturesLast (P : Platform) (sel : Nat → Nat) (id : Nat) (sons : List Composite) (e : Env) :
    Prop :=
  ∀ e₁ f var data start lenght, Comes P sel id sons e e₁ →
    RoundCapture P sel id sons e₁ f var data start lenght →
    f.Lasts P sel id sons e e₁ data start lenght

theorem Accepts.not_rejects (h : Accepts P sel id sons e o) :
    ¬ Rejects P id (evalSons P sel sons) e e' := by
  obtain ⟨result, res, e₁, hround, hok⟩ := h
  rintro ⟨o', result', res', hround', hgo⟩
  rw [hround] at hround'
  cases hround'
  rw [goesOn, hok, Bool.false_and] at hgo
  cases hgo

/-- Every round of the loop comes before an accepted one. -/
theorem Accepts.comes (h : Accepts P sel id sons e₂ o) (hcome : Comes P sel id sons e e₂)
    (hcome' : Comes P sel id sons e e₁) : Comes P sel id sons e₁ e₂ := by
  obtain hon | hback := Relation.ReflTransGen.total_of_right_unique
    (rejects_rightUnique P id (evalSons P sel sons)) hcome' hcome
  · exact hon
  · obtain rfl | ⟨e₃, hreject, _⟩ := hback.cases_head
    · exact .refl
    · exact absurd hreject h.not_rejects

/-- There is one accepted round. -/
theorem Accepts.unique {o' : ReadOutcome} (h : Accepts P sel id sons e₁ o)
    (h' : Accepts P sel id sons e₂ o') (hcome : Comes P sel id sons e e₁)
    (hcome' : Comes P sel id sons e e₂) : o' = o := by
  obtain rfl | ⟨e₃, hreject, _⟩ := (h'.comes hcome' hcome).cases_head
  · obtain ⟨_, _, _, hround, _⟩ := h
    obtain ⟨_, _, _, hround', _⟩ := h'
    rw [hround] at hround'
    cases hround'
    rfl
  · exact absurd hreject h.not_rejects

/-- A capture leaves its variable with bytes of the accepted packet if and only if it
lasts. -/
theorem RoundCapture.lasts_iff (hcap : RoundCapture P sel id sons e₁ f var data start lenght)
    (hcome : Comes P sel id sons e e₁) (hlast : Comes P sel id sons e e₂)
    (hround : readRound P id (evalSons P sel sons) e₂ = .ok ((o, result, res), e'))
    (hok : thereIsAFail result = false) (hpos : 0 < o.n) :
    e'.view var = some (some ((o.bytes.drop start).take lenght)) ↔
      f.Lasts P sel id sons e e₁ data start lenght := by
  have haccepts : Accepts P sel id sons e₂ o := ⟨result, res, e', hround, hok⟩
  obtain rfl | ⟨e₃, hreject, hmore⟩ := (haccepts.comes hlast hcome).cases_head
  · -- The capture is made in the accepted round.
    obtain ⟨hraw, hafter⟩ := hcap.after hround
    rw [frameOf_raw, if_pos hpos] at hraw
    cases hraw
    rw [hafter.view]
    cases f with
    | kept => exact iff_of_true rfl ⟨o, haccepts⟩
    | deleted => exact iff_of_false (fun h => by cases h) fun h => h
    | dropped =>
        refine iff_of_true rfl fun e₃ o' hcome' haccepts' => ?_
        rw [haccepts.unique haccepts' hlast hcome']
        rfl
  · have hstep := hreject
    obtain ⟨o₁, result₁, res₁, hround₁, _⟩ := hstep
    have hview := (hcap.after hround₁).2.later hmore hround
    rw [hview]
    cases f with
    | kept => exact iff_of_false (fun h => by cases h) fun ⟨_, h⟩ => h.not_rejects hreject
    | deleted => exact iff_of_false (fun h => by cases h) fun h => h
    | dropped =>
        constructor
        · intro h e₄ o' hcome' haccepts'
          rw [haccepts.unique haccepts' hlast hcome']
          exact (Option.some.inj (Option.some.inj h)).symm
        · intro h
          rw [if_pos rfl, h e₂ o hlast haccepts]

/-- A read that returns successfully holds the first packet that no son fails on.  The
variables that its sons capture stand for bytes of that packet if and only if every capture
lasts. -/
theorem captures_from_returned_iff {socket : Transport}
    (hread : factoryAction sons = .readAction socket)
    (h : eval P sel (.node .composite id name sons) e = .ok (s, e'))
    (hs : s.isFailValue = false) :
    HoldsFirst P sel id sons e s ∧ BindsReturned P sel id sons e s e' ↔
      CapturesLast P sel id sons e := by
  rw [eval, strategyOf, hread] at h
  obtain ⟨e₁, o, result, res, e₂, hrejects, hround, hgo, rfl, rfl⟩ := readAction_ok h
  obtain ⟨hr, rfl⟩ := round_of_ok hround
  have hpos := (returned_fails P id o result).mp hs
  have hok : thereIsAFail result = false := by
    rw [goesOn, decide_eq_true (le_of_lt hpos), Bool.and_true] at hgo
    exact hgo
  have hraw := (returned_rawValue P id o result).trans ((frameOf_raw P id o).trans (if_pos hpos))
  have hfirst : HoldsFirst P sel id sons e (if ((frameOf P id o).push result).isFailValue then
      (frameOf P id o).push result else ((frameOf P id o).push result).setPacketValue) := by
    obtain ⟨rejected, hreads, hrec, _⟩ := rejects_take hrejects
    refine ⟨rejected, e₁, o, result, _, e₂, hrejects, hrec, hround, hok, ?_,
      returned_sons P id o result, hraw⟩
    rw [hreads, hr.reads_cons (le_of_lt hpos)]
  rw [and_iff_right hfirst]
  refine forall_congr' fun e₃ => forall_congr' fun f => forall_congr' fun var => ?_
  refine forall_congr' fun data => forall_congr' fun start => forall_congr' fun lenght => ?_
  refine forall_congr' fun hcome => forall_congr' fun hcap => ?_
  rw [← hcap.lasts_iff hcome hrejects hround hok hpos, hraw]
  constructor
  · rintro ⟨packet, hpacket, hview⟩
    cases hpacket
    exact hview
  · exact fun hview => ⟨_, rfl, hview⟩

/-- A node that is no alternation and no command that drops the results of its sons. -/
def Composite.keepsSons : Composite → Bool
  | .node .orComposite _ _ _ => false
  | .node .composite _ _ sons =>
      match factoryAction sons with
      | .command c => !c.drops
      | _ => true
  | _ => true

theorem sonFate_of_keepsSons {d : Composite} (h : d.keepsSons = true) (i : Nat) :
    sonFate sel d i = .kept := by
  unfold sonFate
  split
  · cases h
  · split
    · next c hc =>
        simp only [Composite.keepsSons, hc, Bool.not_eq_true'] at h
        rw [if_neg (h ▸ Bool.false_ne_true)]
    · rfl
  · rfl

theorem VisitsAs.eq_kept {c x : Composite} {ex : Env} (h : VisitsAs P sel f c e x ex)
    (hkeep : ∀ d ∈ c.nodes, d.keepsSons = true) : f = .kept := by
  induction h with
  | refl => rfl
  | @son f c d x e ed ex i hson _ ih =>
      have hd := Composite.son_mem_nodes hson.mem
      rw [ih fun y hy => hkeep y (Composite.nodes_trans hd hy),
        sonFate_of_keepsSons (hkeep c c.mem_nodes_self) i]
      rfl

/-- The captures last if the first packet is accepted and the sons have no alternations and
no commands that drop results. -/
theorem capturesLast_of_first (haccepts : Accepts P sel id sons e o)
    (hkeep : ∀ c ∈ sons, ∀ d ∈ c.nodes, d.keepsSons = true) :
    CapturesLast P sel id sons e := by
  intro e₁ f var data start lenght hcome hcap
  obtain rfl | ⟨e₂, hreject, _⟩ := hcome.cases_head
  · obtain ⟨_, _, i, d, ed, x, ex, _, hreach, hx, _⟩ := hcap.visited
    rw [hx.eq_kept (hkeep d hreach.mem)]
    exact ⟨o, haccepts⟩
  · exact absurd hreject haccepts.not_rejects

/-- `<%Variable%> "v" %d0 %d4`. -/
def fourBytes : Composite := .node .composite 6 (ascii "c")
  [.leaf .commandComposite 7 (ascii "<%Variable%>"), .leaf .stringLeaf 8 (ascii "\\\"v\\\""),
   .leaf .decLeaf 9 (ascii "%d0"), .leaf .decLeaf 10 (ascii "%d4")]

/-- The sons of `<%UDP_read%> k c`, with a mask check for `k`. -/
def checkedSons : List Composite :=
  [.leaf .commandComposite 1 (ascii "<%UDP_read%>"), upperHalf.node, fourBytes]

/-- One packet, which the mask check accepts. -/
def checkedEnv : Env := { reads := [⟨4, [0x4a, 1, 2, 3]⟩] }

theorem captures_from_returned_checked : ∃ s e', eval ⟨fun b => b, 0⟩ (fun _ => 0)
      (.node .composite 0 (ascii "r") checkedSons) checkedEnv = .ok (s, e') ∧
    HoldsFirst ⟨fun b => b, 0⟩ (fun _ => 0) 0 checkedSons checkedEnv s ∧
    BindsReturned ⟨fun b => b, 0⟩ (fun _ => 0) 0 checkedSons checkedEnv s e' ∧
    e'.view (ascii "v") = some (some [0x4a, 1, 2, 3]) := by
  have hread : factoryAction checkedSons = .readAction .udp := rfl
  have haccepts : Accepts ⟨fun b => b, 0⟩ (fun _ => 0) 0 checkedSons checkedEnv
      ⟨4, [0x4a, 1, 2, 3]⟩ := ⟨_, _, _, rfl, rfl⟩
  have hlast := capturesLast_of_first haccepts (by decide)
  have hcheck : (match eval ⟨fun b => b, 0⟩ (fun _ => 0)
      (.node .composite 0 (ascii "r") checkedSons) checkedEnv with
    | .ok (s, e') => s.isFailValue == false &&
        e'.view (ascii "v") == some (some [0x4a, 1, 2, 3])
    | .error _ => false) = true := by decide +kernel
  split at hcheck
  · next s e' hrun =>
      simp only [Bool.and_eq_true, beq_iff_eq] at hcheck
      obtain ⟨hfirst, hbinds⟩ := (captures_from_returned_iff hread hrun hcheck.1).mpr hlast
      exact ⟨s, e', hrun, hfirst, hbinds, hcheck.2⟩
  · cases hcheck

/-- `<%Sum%> c %d1`. -/
def nextNumber : Composite := .node .composite 11 (ascii "s")
  [.leaf .commandComposite 12 (ascii "<%Sum%>"), fourBytes, .leaf .decLeaf 13 (ascii "%d1")]

/-- The sons of `<%UDP_read%> s k`, with a mask check for `k`. -/
def numberSons : List Composite :=
  [.leaf .commandComposite 1 (ascii "<%UDP_read%>"), nextNumber, upperHalf.node]

/-- A packet that the mask check rejects, and one that it accepts. -/
def numberEnv : Env := { reads := [⟨4, [0x37, 0, 0, 0]⟩, ⟨4, [0x4a, 0, 0, 0]⟩] }

/-- The first packet is rejected, and the variable captured from it stays. -/
theorem stale_capture : ∃ s e', eval ⟨fun b => b, 0⟩ (fun _ => 0)
      (.node .composite 0 (ascii "r") numberSons) numberEnv = .ok (s, e') ∧
    s.isFailValue = false ∧ s.data.rawValue = some [0x4a, 0, 0, 0] ∧
    numberEnv.view (ascii "v") = none ∧ e'.view (ascii "v") = some (some [0x37, 0, 0, 0]) ∧
    ¬ BindsReturned ⟨fun b => b, 0⟩ (fun _ => 0) 0 numberSons numberEnv s e' := by
  have hcheck : (match eval ⟨fun b => b, 0⟩ (fun _ => 0)
      (.node .composite 0 (ascii "r") numberSons) numberEnv with
    | .ok (s, e') => s.isFailValue == false && s.data.rawValue == some [0x4a, 0, 0, 0] &&
        e'.view (ascii "v") == some (some [0x37, 0, 0, 0])
    | .error _ => false) = true := by decide +kernel
  split at hcheck
  · next s e' hrun =>
      simp only [Bool.and_eq_true, beq_iff_eq] at hcheck
      obtain ⟨⟨hfail, hraw⟩, hview⟩ := hcheck
      refine ⟨s, e', hrun, hfail, hraw, rfl, hview, fun hall => ?_⟩
      have hcap : RoundCapture ⟨fun b => b, 0⟩ (fun _ => 0) 0 numberSons numberEnv
          ((sonFate (fun _ => 0) nextNumber 1).within .kept) (ascii "v") [0x37, 0, 0, 0] 0 4 :=
        ⟨⟨4, [0x37, 0, 0, 0]⟩, _, 1, nextNumber, _, fourBytes, _, rfl,
          ⟨[.leaf .commandComposite 1 (ascii "<%UDP_read%>")], [upperHalf.node], _, rfl, rfl, rfl⟩,
          .son (.command rfl ⟨[.leaf .commandComposite 12 (ascii "<%Sum%>")],
            [.leaf .decLeaf 13 (ascii "%d1")], _, rfl, rfl, rfl⟩) .refl,
          ⟨⟨6, ascii "c", _, rfl, rfl⟩, _, _, rfl, {
            name := ⟨_, rfl, rfl⟩
            unbound := rfl
            frame := ⟨_, rfl, rfl⟩
            offset := ⟨_, rfl, rfl⟩
            size := ⟨_, rfl, rfl⟩
            fits := by decide }⟩⟩
      obtain ⟨packet, hpacket, hbound⟩ := hall numberEnv _ _ _ _ _ .refl hcap
      rw [hraw] at hpacket
      cases hpacket
      rw [hview] at hbound
      exact absurd hbound (by decide)
  · cases hcheck

end Reads

end Stress

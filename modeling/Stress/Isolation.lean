import Stress.Effects

/-!
# Alternatives and their effects

`InjectAction` runs every alternative and keeps one result.  `isolated_iff` says
when that comes to running the selected alternative alone: exactly when every
other alternative is quiet where it is run.

A quiet alternative returns, and runs no send, no read, and no `Variable` or
`Memorize` command that finds its variable unbound.
-/

namespace Stress

/-- The same calls, the same packets left, and the same variables with the same
bytes. -/
structure SameEffects (e e' : Env) : Prop where
  trace : e.trace = e'.trace
  reads : e.reads = e'.reads
  view : ∀ var, e.view var = e'.view var

theorem SameEffects.refl (e : Env) : SameEffects e e := ⟨rfl, rfl, fun _ => rfl⟩

/-- The states send the same bytes. -/
def SameWire (s s' : State) : Prop := s.getStringToSend = s'.getStringToSend

section Quiet

variable {P : Platform} {sel : Nat → Nat}

/-- The run of a node from `e` is a send, a read, or a command that binds a
variable. -/
inductive Acts (P : Platform) (sel : Nat → Nat) : Composite → Env → Prop where
  | send {id : Nat} {name : Bytes} {sons : List Composite} {e : Env} {socket : Transport}
      (ha : factoryAction sons = .sendAction socket) :
      Acts P sel (.node .composite id name sons) e
  | read {id : Nat} {name : Bytes} {sons : List Composite} {e : Env} {socket : Transport}
      (ha : factoryAction sons = .readAction socket) :
      Acts P sel (.node .composite id name sons) e
  | bind {id : Nat} {name : Bytes} {sons : List Composite} {e e₁ : Env} {c : Command}
      {result : List State} {var : Bytes} (ha : factoryAction sons = .command c)
      (hc : c = .variableCommand ∨ c = .memorizeCommand)
      (hrun : evalSons P sel sons e = .ok (result, e₁)) (hvar : Names result var)
      (hnone : e₁.vars.lookup var = none) :
      Acts P sel (.node .composite id name sons) e

/-- A run that returns and in which nothing acts. -/
def Quiet (P : Platform) (sel : Nat → Nat) (d : Composite) (e : Env) : Prop :=
  (∃ s e', eval P sel d e = .ok (s, e')) ∧ ∀ x ex, Visits P sel d e x ex → ¬ Acts P sel x ex

/-! ## What acts leaves a mark -/

/-- A call more, or a variable more. -/
theorem acts_marks {x : Composite} {e e' : Env} {s : State} (h : Acts P sel x e)
    (hrun : eval P sel x e = .ok (s, e')) :
    e.trace.length < e'.trace.length ∨ ∃ n, e.view n = none ∧ (e'.view n).isSome := by
  cases h with
  | send ha =>
      rw [eval, strategyOf, ha] at hrun
      obtain ⟨result, e₁, hsons, _, rfl⟩ := sendAction_ok hrun
      refine .inl (Nat.lt_of_le_of_lt (evalSons_before hsons).trace.length_le ?_)
      rw [Env.sent, List.length_append, List.length_singleton]
      exact Nat.lt_succ_self _
  | read ha =>
      rw [eval, strategyOf, ha] at hrun
      exact .inl (readAction_effect evalSons_effect hrun).2
  | @bind id name sons _ e₁ c result var ha hc hsons hvar hnone =>
      rw [eval, strategyOf, ha] at hrun
      obtain ⟨_, result', e₂, hsons', hfinish⟩ := commandActionOn_ok hrun
      rw [hsons] at hsons'
      cases hsons'
      obtain ⟨t, ht, rfl⟩ := hvar
      have hunbound : e.view t.getStringValue = none := by
        rw [← Option.not_isSome_iff_eq_none]
        intro hsome
        have hlater := (evalSons_before hsons).bound _ hsome
        rw [Env.view, hnone] at hlater
        cases hlater
      refine .inr ⟨t.getStringValue, hunbound, ?_⟩
      cases hc with
      | inl hv =>
          subst hv
          obtain ⟨var, v, ⟨t', ht', rfl⟩, hlive, _⟩ | ⟨var, _, _, _, hcap, rfl, _⟩ :=
            runVariable_ok hfinish
          · rw [ht] at ht'
            cases ht'
            rw [hnone] at hlive
            cases hlive
          · obtain ⟨t', ht', rfl⟩ := hcap.name
            rw [ht] at ht'
            cases ht'
            rw [Env.view, List.lookup_cons_self]
            rfl
      | inr hm =>
          subst hm
          obtain ⟨var, v, ⟨t', ht', rfl⟩, hlive, _⟩ | ⟨var, _, ⟨t', ht', rfl⟩, _, _, rfl, _⟩ :=
            runMemorize_ok hfinish
          · rw [ht] at ht'
            cases ht'
            rw [hnone] at hlive
            cases hlive
          · rw [ht] at ht'
            cases ht'
            rw [Env.view, List.lookup_cons_self]
            rfl

/-! ## What does not act leaves the environment alone -/

theorem evalSons_still {cs : List Composite} {e e' : Env} {ss : List State}
    (h : ∀ i d, ReachesAll P sel cs e i d e → ∀ s e₁, eval P sel d e = .ok (s, e₁) → e₁ = e)
    (hrun : evalSons P sel cs e = .ok (ss, e')) : e' = e := by
  induction cs generalizing ss with
  | nil =>
      rw [evalSons, Comp.pure_ok] at hrun
      exact hrun.2
  | cons c cs ih =>
      obtain ⟨s, e₁, ss', hs, hss, rfl⟩ := evalSons_cons_ok.mp hrun
      have he₁ := h 0 c (.head c cs e) s e₁ hs
      subst he₁
      exact ih (fun i d hd => h (i + 1) d (.tail hs hd)) hss

theorem evalSonsReturn_still {cs : List Composite} {e e' : Env} {ss : List State}
    (h : ∀ i d, ReachesReturn P sel cs e i d e → ∀ s e₁, eval P sel d e = .ok (s, e₁) → e₁ = e)
    (hrun : evalSonsReturn P sel cs e = .ok (ss, e')) : e' = e := by
  induction cs generalizing ss with
  | nil =>
      rw [evalSonsReturn, Comp.pure_ok] at hrun
      exact hrun.2
  | cons c cs ih =>
      obtain ⟨s, e₁, hs, hrest⟩ := evalSonsReturn_cons_ok.mp hrun
      have he₁ := h 0 c (.head c cs e) s e₁ hs
      subst he₁
      split at hrest
      · exact hrest.2
      · next hok =>
          obtain ⟨ss', hss, _⟩ := hrest
          rw [Bool.not_eq_true] at hok
          exact ih (fun i d hd => h (i + 1) d (.tail hs hok hd)) hss

theorem runTimes_still {m : EnvComp State} {e e' : Env} {n : Nat} {ss : List State}
    (h : 0 < n → ∀ s e₁, m e = .ok (s, e₁) → e₁ = e) (hrun : runTimes m n e = .ok (ss, e')) :
    e' = e := by
  induction n generalizing ss with
  | zero => exact (Comp.pure_ok.mp hrun).2
  | succ n ih =>
      obtain ⟨s, e₁, ss', hs, hss, rfl⟩ := runTimes_succ_ok hrun
      have he₁ := h (Nat.succ_pos n) s e₁ hs
      subst he₁
      exact ih (fun _ => h (Nat.succ_pos n)) hss

/-- A run in which nothing acts changes nothing. -/
theorem eval_still (d : Composite) {e e' : Env} {s : State}
    (hquiet : ∀ x ex, Visits P sel d e x ex → ¬ Acts P sel x ex)
    (hrun : eval P sel d e = .ok (s, e')) : e' = e := by
  induction d using Composite.induction generalizing s e' with
  | h d ih =>
      have hson : ∀ i c, RunsSon P sel d e i c e → c ∈ d.sons → ∀ s e₁,
          eval P sel c e = .ok (s, e₁) → e₁ = e :=
        fun i c hc hmem s e₁ h => ih c hmem (fun x ex hx => hquiet x ex (.son hc hx)) h
      cases d with
      | leaf kind id name =>
          rw [eval, Comp.pure_ok] at hrun
          exact hrun.2
      | node kind id name sons =>
          rw [eval] at hrun
          cases kind with
          | orComposite =>
              obtain ⟨result, e₁, hsons, hselect⟩ := injectAction_ok hrun
              have he₁ : e₁ = e := evalSons_still
                (fun i c hc => hson i c (.alternative hc) hc.mem) hsons
              subst he₁
              have hnil := (evalSons_effect hsons).wires_eq_nil
              rw [List.flatMap_eq_nil_iff] at hnil
              obtain ⟨r, hr, _⟩ := selectResult_ok hselect
              rw [selectResult_eq hr fun t ht => State.wires_eq_nil_iff.mp (hnil t ht)] at hselect
              cases hselect
              rfl
          | repeatComposite =>
              obtain ⟨results, hruns, _⟩ := repeatAction_ok hrun
              refine runTimes_still (fun hn s e₁ hcopy => ?_) hruns
              obtain ⟨result, _, hsons, _⟩ := returnAction_ok hcopy
              exact evalSonsReturn_still
                (fun i c hc => hson i c (.copy hn rfl hc) hc.mem) hsons
          | composite =>
              rw [strategyOf] at hrun
              cases ha : factoryAction sons with
              | returnAction =>
                  rw [ha] at hrun
                  obtain ⟨result, _, hsons, _⟩ := returnAction_ok hrun
                  exact evalSonsReturn_still
                    (fun i c hc => hson i c (.sequence ha hc) hc.mem) hsons
              | repeatAction => exact absurd ha (factoryAction_ne_repeatAction sons)
              | injectAction n => exact absurd ha (factoryAction_ne_injectAction sons n)
              | sendAction socket => exact absurd (.send ha) (hquiet _ _ .refl)
              | readAction socket => exact absurd (.read ha) (hquiet _ _ .refl)
              | command c =>
                  rw [ha] at hrun
                  obtain ⟨_, result, e₁, hsons, hfinish⟩ := commandActionOn_ok hrun
                  have he₁ : e₁ = e := evalSons_still
                    (fun i c hc => hson i c (.command ha hc) hc.mem) hsons
                  subst he₁
                  by_cases hv : c = .variableCommand
                  · subst hv
                    obtain ⟨_, _, _, _, rfl, _⟩ | ⟨var, _, _, _, hcap, rfl, _⟩ :=
                      runVariable_ok hfinish
                    · rfl
                    · exact absurd (.bind ha (.inl rfl) hsons hcap.name hcap.unbound)
                        (hquiet _ _ .refl)
                  · by_cases hm : c = .memorizeCommand
                    · subst hm
                      obtain ⟨_, _, _, _, rfl, _⟩ | ⟨var, _, hvar, hnone, _, rfl, _⟩ :=
                        runMemorize_ok hfinish
                      · rfl
                      · exact absurd (.bind ha (.inr rfl) hsons hvar hnone) (hquiet _ _ .refl)
                    · exact (finish_ok hv hm hfinish).1

/-- Being quiet is returning without an effect that can be seen. -/
theorem quiet_iff {d : Composite} {e : Env} :
    Quiet P sel d e ↔ ∃ s e', eval P sel d e = .ok (s, e') ∧ SameEffects e' e := by
  constructor
  · rintro ⟨⟨s, e', hrun⟩, hquiet⟩
    have he := eval_still d hquiet hrun
    subst he
    exact ⟨s, e', hrun, .refl e'⟩
  · rintro ⟨s, e', hrun, hsame⟩
    refine ⟨⟨s, e', hrun⟩, fun x ex hx hacts => ?_⟩
    obtain ⟨hbefore, s', ex', hx', hafter⟩ := hx.inside hrun
    cases acts_marks hacts hx' with
    | inl hlonger =>
        have h₁ := hbefore.trace.length_le
        have h₂ := hafter.trace.length_le
        rw [hsame.trace] at h₂
        omega
    | inr hnew =>
        obtain ⟨n, hnone, hsome⟩ := hnew
        have hbound := hafter.bound n hsome
        rw [hsame.view n] at hbound
        have := hbefore.bound n hbound
        rw [hnone] at this
        cases this

/-- Quiet alternatives return in the environment they start from. -/
theorem evalSons_quiet {cs : List Composite} {e : Env}
    (h : ∀ i d ed, ReachesAll P sel cs e i d ed → Quiet P sel d ed) :
    ∃ ss, evalSons P sel cs e = .ok (ss, e) ∧ ∀ t ∈ ss, t.boundNames = [] := by
  induction cs with
  | nil => exact ⟨[], by rw [evalSons]; rfl, nofun⟩
  | cons c cs ih =>
      obtain ⟨⟨s, e', hs⟩, hquiet⟩ := h 0 c e (.head c cs e)
      have he := eval_still c hquiet hs
      subst he
      obtain ⟨ss, hss, hnil⟩ := ih fun i d ed hd => h (i + 1) d ed (.tail hs hd)
      refine ⟨s :: ss, evalSons_cons_ok.mpr ⟨s, e', ss, hs, hss, rfl⟩, ?_⟩
      rw [List.forall_mem_cons]
      exact ⟨State.wires_eq_nil_iff.mp (eval_effect c hs).wires_eq_nil, hnil⟩

/-! ## The selected alternative -/

/-- The alternatives other than the one at place `i` are quiet. -/
def OthersQuiet (P : Platform) (sel : Nat → Nat) (sons : List Composite) (i : Nat) (e : Env) :
    Prop :=
  ∀ j d ed, j ≠ i → ReachesAll P sel sons e j d ed → Quiet P sel d ed

/-- Following the selected result changes the bytes of no variable. -/
theorem refresh_sameEffects {e e' : Env} {ws : List (Bytes × Bytes)} (he : Effect e ws e')
    {s : State} (hs : ∀ p ∈ s.wires, p ∈ ws) : SameEffects (e'.refresh s) e' where
  trace := rfl
  reads := rfl
  view n := by
    rw [Env.view_refresh]
    cases hlookup : s.bindings.lookup n with
    | none => rfl
    | some t =>
        obtain ⟨l₁, l₂, hl, _⟩ := List.lookup_eq_some_iff.mp hlookup
        have hwire : (n, t.getStringToSend) ∈ s.wires := by
          refine List.mem_map.mpr ⟨(n, t), ?_, rfl⟩
          rw [hl]
          simp
        cases he.held _ (hs _ hwire) with
        | inl hlive => simp only at hlive ⊢; rw [hlive]; rfl
        | inr hgone => simp only at hgone ⊢; rw [hgone]; rfl

/-- Next to quiet alternatives the selected one has its own effects and no
others. -/
theorem alternative_agree {id : Nat} {name : Bytes} {sons : List Composite} {alt : Composite}
    {e : Env} (halt : sons[sel id]? = some alt) (h : OthersQuiet P sel sons (sel id) e) :
    Comp.Agree SameEffects SameWire (eval P sel (.node .orComposite id name sons) e)
      (eval P sel alt e) := by
  obtain ⟨hlt, rfl⟩ := List.getElem?_eq_some_iff.mp halt
  have hsplit : sons = sons.take (sel id) ++ sons[sel id] :: sons.drop (sel id + 1) := by
    rw [List.cons_getElem_drop_succ, List.take_append_drop]
  have hlen : (sons.take (sel id)).length = sel id := List.length_take_of_le hlt.le
  have hbefore : ∀ j d ed, ReachesAll P sel (sons.take (sel id)) e j d ed → Quiet P sel d ed := by
    rintro j d ed ⟨p, q, ss, hpq, hj, hp⟩
    refine h j d ed ?_ ⟨p, q ++ sons.drop (sel id), ss, ?_, hj, hp⟩
    · rw [← hlen, hpq, List.length_append, List.length_cons, hj]
      omega
    · rw [← List.cons_append, ← List.append_assoc, ← hpq, List.take_append_drop]
  obtain ⟨pre, hpre, hpreNil⟩ := evalSons_quiet hbefore
  have hplace := evalSons_length hpre
  rw [hlen] at hplace
  rw [eval, strategyOf, runAction, injectAction, Comp.bind_eq]
  nth_rewrite 1 [hsplit]
  rw [evalSons_append_of_ok hpre, evalSons, Comp.bind_eq]
  cases hs : eval P sel sons[sel id] e with
  | error x => rfl
  | ok p =>
      obtain ⟨s, e₁⟩ := p
      have hafter : ∀ j d ed, ReachesAll P sel (sons.drop (sel id + 1)) e₁ j d ed →
          Quiet P sel d ed := by
        rintro j d ed ⟨p, q, ss, hpq, hj, hp⟩
        refine h (sel id + 1 + j) d ed (by omega)
          ⟨sons.take (sel id) ++ sons[sel id] :: p, q, pre ++ s :: ss, ?_, ?_, ?_⟩
        · rw [List.append_assoc, List.cons_append, ← hpq]
          exact hsplit
        · rw [List.length_append, List.length_cons, hlen, hj]
          omega
        · exact evalSons_append_ok.mpr ⟨pre, e, s :: ss, hpre,
            evalSons_cons_ok.mpr ⟨s, e₁, ss, hs, hp, rfl⟩, rfl⟩
      obtain ⟨post, hpost, hpostNil⟩ := evalSons_quiet hafter
      have hget : (pre ++ s :: post)[sel id]? = some s := by
        rw [List.getElem?_append_right hplace.le, hplace, Nat.sub_self]
        rfl
      have hothers : ∀ t ∈ (pre ++ s :: post).eraseIdx (sel id), t.boundNames = [] := by
        intro t ht
        rw [List.eraseIdx_append_of_length_le hplace.le, hplace, Nat.sub_self,
          List.eraseIdx_cons_zero, List.mem_append] at ht
        exact ht.elim (hpreNil t) (hpostNil t)
      simp only
      rw [Comp.bind_eq, hpost]
      change Comp.Agree _ _ (liftEnv (selectResult (sel id) (pre ++ s :: post)) e₁) (.ok (s, e₁))
      rw [liftEnv_env]
      unfold selectResult
      rw [hget]
      simp only
      rw [foldl_delete_of_boundNames hothers]
      have hwire : SameWire (s.setFaultValue.setName ("Anomaly-" ++ toString (sel id))) s := by
        rw [SameWire, State.getStringToSend_setName, State.setFaultValue,
          State.getStringToSend_setStateValue]
      refine ⟨hwire, refresh_sameEffects (eval_effect _ hs) ?_⟩
      rw [State.wires_setName, State.setFaultValue, State.wires_setStateValue]
      exact fun p hp => hp

/-- The selected alternative is all that a run of the node comes to. -/
structure Isolated (P : Platform) (sel : Nat → Nat) (id : Nat) (name : Bytes)
    (sons : List Composite) (alt : Composite) (e : Env) : Prop where
  selected : Comp.Agree SameEffects SameWire (eval P sel (.node .orComposite id name sons) e)
    (eval P sel alt e)
  others : ∀ j d ed, j ≠ sel id → ReachesAll P sel sons e j d ed →
    ∃ s e', eval P sel d ed = .ok (s, e') ∧ SameEffects e' ed

theorem isolated_iff_quiet {id : Nat} {name : Bytes} {sons : List Composite} {alt : Composite}
    {e : Env} (halt : sons[sel id]? = some alt) :
    Isolated P sel id name sons alt e ↔ OthersQuiet P sel sons (sel id) e := by
  constructor
  · intro h j d ed hj hreach
    exact quiet_iff.mpr (h.others j d ed hj hreach)
  · intro h
    exact ⟨alternative_agree halt h, fun j d ed hj hreach => quiet_iff.mp (h j d ed hj hreach)⟩

end Quiet

/-! ## Injectors -/

namespace World

/-- `InjectAction::runAction` at a node has the effects of its selected alternative
alone, and every other alternative returns without effects. -/
structure Isolated (P : Platform) (id : Nat) (name : Bytes) (sons : List Composite)
    (alt : Composite) (w : World) : Prop where
  selected : Comp.Agree (fun w₁ w₂ => SameEffects w₁.env w₂.env) SameWire
    (runTest P (.node .orComposite id name sons) w) (runTest P alt w)
  others : ∀ pre d post ss w₁, sons = pre ++ d :: post → pre.length ≠ w.selected id →
    runSons P pre w = .ok (ss, w₁) →
      ∃ s w₂, runTest P d w₁ = .ok (s, w₂) ∧ SameEffects w₂.env w₁.env

section Isolated

variable {P : Platform} {t : ParsedTree} {extra : Nat} {w : World} {id : Nat} {name : Bytes}
  {sons : List Composite} {alt : Composite}

theorem isolated_iff_eval (hw : w.Valid t extra)
    (hc : .node .orComposite id name sons ∈ t.root.nodes)
    (halt : sons[w.selected id]? = some alt) :
    w.Isolated P id name sons alt ↔ Stress.Isolated P w.selected id name sons alt w.env := by
  have hmem : ∀ d ∈ sons, d ∈ t.root.nodes :=
    fun d hd => Composite.nodes_trans hc (Composite.son_mem_nodes hd)
  have hrun := runTest_agree (P := P) hw hc
  have halone := runTest_agree (P := P) hw (hmem alt (List.mem_of_getElem? halt))
  have hsons : ∀ cs : List Composite, (∀ d ∈ cs, d ∈ t.root.nodes) →
      Comp.Sim (InRun t extra w) Eq (runSons P cs) (evalSons P w.selected cs) :=
    fun cs hcs => runSons_sim hcs fun _ _ => rfl
  have hson : ∀ d ∈ sons,
      Comp.Sim (InRun t extra w) Eq (runTest P d) (eval P w.selected d) :=
    fun d hd => runTest_sim d (hmem d hd) fun _ _ => rfl
  have hagree := Comp.Agree.map_iff (S := SameEffects) (Q := SameWire) (f := World.env)
    (hrun.imp (fun _ _ h => h) fun _ _ h => h.env) (halone.imp (fun _ _ h => h) fun _ _ h => h.env)
  constructor
  · rintro ⟨hselected, hothers⟩
    refine ⟨hagree.mp hselected, ?_⟩
    · rintro j d ed hj ⟨pre, post, ss, rfl, rfl, hpre⟩
      have hpremem : ∀ d ∈ pre, d ∈ t.root.nodes := fun d hd => hmem d (by simp [hd])
      obtain ⟨ss', w₁, hrunpre, rfl, hin⟩ := (hsons pre hpremem).ok_right ⟨.refl hw, rfl⟩ hpre
      obtain ⟨s, w₂, hd, hsame⟩ := hothers pre d post _ w₁ rfl hj hrunpre
      obtain ⟨s', e', hd', rfl, hin'⟩ := (hson d (by simp)).ok hin hd
      rw [hin'.env, hin.env] at hsame
      exact ⟨_, e', hd', hsame⟩
  · rintro ⟨hselected, hothers⟩
    refine ⟨hagree.mpr hselected, ?_⟩
    · rintro pre d post ss w₁ rfl hj hrunpre
      have hpremem : ∀ d ∈ pre, d ∈ t.root.nodes := fun d hd => hmem d (by simp [hd])
      obtain ⟨ss', ed, hpre, rfl, hin⟩ := (hsons pre hpremem).ok ⟨.refl hw, rfl⟩ hrunpre
      obtain ⟨s, e', hd, hsame⟩ := hothers _ d ed hj ⟨pre, post, _, rfl, rfl, hpre⟩
      obtain ⟨s', w₂, hd', rfl, hin'⟩ := (hson d (by simp)).ok_right hin hd
      rw [← hin'.env, ← hin.env] at hsame
      exact ⟨_, w₂, hd', hsame⟩

/-- Running an alternation comes to running the selected alternative alone if and
only if the other alternatives are quiet. -/
theorem injectAction_isolated_iff (hw : w.Valid t extra)
    (hc : .node .orComposite id name sons ∈ t.root.nodes)
    (halt : sons[w.selected id]? = some alt) :
    w.Isolated P id name sons alt ↔
      OthersQuiet P w.selected sons (w.selected id) w.env := by
  rw [isolated_iff_eval hw hc halt]
  exact isolated_iff_quiet halt

end Isolated

/-- A send and an encoded text, as in `(<%UDP_send%> "b") / (<%Base64Encode%> "a")`. -/
def sendAndBase64 : List Composite :=
  [.node .composite 2 (ascii "()")
    [.leaf .commandComposite 3 (ascii "<%UDP_send%>"), .leaf .stringLeaf 4 (ascii "\\\"b\\\"")],
   .node .composite 5 (ascii "()")
    [.leaf .commandComposite 6 (ascii "<%Base64Encode%>"),
      .leaf .stringLeaf 7 (ascii "\\\"a\\\"")]]

def sendOrBase64 : ParsedTree where
  root := .node .composite 0 (ascii "r") [.node .orComposite 1 (ascii "/") sendAndBase64]
  nodup := by decide
  sons_ne_nil := by decide
  alternatives := by decide
  size := by decide

/-- The send is selected, and the command of the other alternative has no effect. -/
theorem injectAction_isolated_sendOrBase64 :
    fresh.Isolated ⟨fun b => b, 0⟩ 1 (ascii "/") sendAndBase64
      (.node .composite 2 (ascii "()") [.leaf .commandComposite 3 (ascii "<%UDP_send%>"),
        .leaf .stringLeaf 4 (ascii "\\\"b\\\"")]) := by
  refine (injectAction_isolated_iff (fresh_valid sendOrBase64) ?_ rfl).mpr ?_
  · exact Composite.son_mem_nodes List.mem_cons_self
  · rintro j d ed hj ⟨pre, post, ss, hsons, rfl, _⟩
    match pre with
    | [] => exact absurd rfl hj
    | [_] =>
        cases hsons
        exact quiet_iff.mpr ⟨_, ed, rfl, .refl ed⟩
    | _ :: _ :: _ => simp [sendAndBase64] at hsons

/-- A text and a send, as in `"a" / (<%UDP_send%> "b")`. -/
def textAndSend : List Composite :=
  [.leaf .stringLeaf 2 (ascii "\\\"a\\\""),
   .node .composite 3 (ascii "()")
    [.leaf .commandComposite 4 (ascii "<%UDP_send%>"), .leaf .stringLeaf 5 (ascii "\\\"b\\\"")]]

/-- An alternation of the two. -/
def textOrSend : ParsedTree where
  root := .node .composite 0 (ascii "r") [.node .orComposite 1 (ascii "/") textAndSend]
  nodup := by decide
  sons_ne_nil := by decide
  alternatives := by decide
  size := by decide

/-- The send goes out, although the text is selected. -/
theorem injectAction_runs_the_others :
    ¬ ∀ (P : Platform) (t : ParsedTree) (extra : Nat) (w : World) (id : Nat) (name : Bytes)
      (sons : List Composite) (alt : Composite), w.Valid t extra →
        .node .orComposite id name sons ∈ t.root.nodes → sons[w.selected id]? = some alt →
          w.Isolated P id name sons alt := by
  intro hall
  have hselected := (hall ⟨fun b => b, 0⟩ textOrSend 0 fresh 1 (ascii "/") textAndSend
    (.leaf .stringLeaf 2 (ascii "\\\"a\\\"")) (fresh_valid textOrSend)
    (Composite.son_mem_nodes List.mem_cons_self) rfl).selected
  have htrace : (runTest ⟨fun b => b, 0⟩ (.node .orComposite 1 (ascii "/") textAndSend) fresh).map
      (fun p => p.2.env.trace) = .ok [.send (ascii "b") 1] := by decide
  cases hrun : runTest ⟨fun b => b, 0⟩ (.node .orComposite 1 (ascii "/") textAndSend) fresh with
  | error x =>
      rw [hrun] at htrace
      cases htrace
  | ok p =>
      rw [hrun] at htrace hselected
      have hsame : p.2.env.trace = [] := hselected.2.trace
      rw [Except.map, hsame] at htrace
      cases htrace

end World

end Stress

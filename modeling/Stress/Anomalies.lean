import Stress.Log

/-!
# The names of anomalies

An alternation names the result that it selects after the number of the
alternative, so that the log shows which values are anomalies.  The name is given
to the whole result.  A state that is no value hands it to its sons, and a value
takes it and keeps it from its sons.  Alternations inside one another give their
names one after the other, and the last one stays.

States are found by their addresses in the state of a run, a list of places among
the sons.  `Made` follows an address down the tree and says which alternations
lie above the state there, what they select, and whose names get to it.
-/

namespace Stress

/-- The name an alternation gives. -/
def anomalyName (value : Nat) : String := "Anomaly-" ++ toString value

theorem anomalyName_injective {m n : Nat} (h : anomalyName m = anomalyName n) : m = n := by
  have hrepr : Nat.repr m = Nat.repr n := (String.append_right_inj _).mp h
  have hdigits : Nat.toDigits 10 m = Nat.toDigits 10 n := by
    rw [← Nat.toList_repr, ← Nat.toList_repr, hrepr]
  rw [← Nat.ofDigitChars_toDigits (b := 10) (n := m) (by decide) (by decide), hdigits,
    Nat.ofDigitChars_toDigits (by decide) (by decide)]

/-- A name that starts otherwise. -/
def Unnamed (name : String) : Prop := name.toList.head? ≠ some 'A'

instance : DecidablePred Unnamed := fun name =>
  inferInstanceAs (Decidable (name.toList.head? ≠ some 'A'))

theorem Unnamed.ne {name : String} (h : Unnamed name) (n : Nat) : name ≠ anomalyName n := by
  rintro rfl
  refine h ?_
  rw [anomalyName, String.toList_append]
  rfl

theorem unnamed_type (cls : StateClass) : Unnamed cls.type := by
  cases cls <;> decide

/-! ## Addresses -/

namespace State

/-- The state at an address, if there is one. -/
def at? : State → List Nat → Option State
  | s, [] => some s
  | s, i :: p => s.sons[i]?.bind fun t => t.at? p

/-- Whether a name given to a state gets to the state at an address: there is no
value on the way. -/
def opens : State → List Nat → Bool
  | _, [] => true
  | s, i :: p => !s.data.cls.isValueState && (s.sons[i]?.map fun t => t.opens p).getD false

theorem at?_cons {s x : State} {i : Nat} {p : List Nat} (h : s.at? (i :: p) = some x) :
    ∃ t, s.sons[i]? = some t ∧ t.at? p = some x :=
  Option.bind_eq_some_iff.mp h

theorem opens_cons {s t : State} {i : Nat} (p : List Nat) (h : s.sons[i]? = some t) :
    s.opens (i :: p) = (!s.data.cls.isValueState && t.opens p) := by
  rw [opens, h]
  rfl

/-- A change to the data of a state, its class and its name apart, leaves the
addresses alone. -/
theorem at?_congr {s s' : State} (hsons : s'.sons = s.sons) (hcls : s'.data.cls = s.data.cls)
    (hname : s'.data.name = s.data.name) {p : List Nat} {x' : State} (h : s'.at? p = some x') :
    ∃ x, s.at? p = some x ∧ x'.data.cls = x.data.cls ∧ x'.data.name = x.data.name ∧
      s'.opens p = s.opens p := by
  cases p with
  | nil =>
      cases h
      exact ⟨s, rfl, hcls, hname, rfl⟩
  | cons i p =>
      refine ⟨x', ?_, rfl, rfl, ?_⟩
      · rw [at?, ← hsons]
        exact h
      · rw [opens, opens, hsons, hcls]

/-- What a renaming does to the state at an address. -/
theorem at?_setName (n : String) {s x' : State} {p : List Nat}
    (h : (s.setName n).at? p = some x') :
    ∃ x, s.at? p = some x ∧ x'.data.cls = x.data.cls ∧ (s.setName n).opens p = s.opens p ∧
      (x.data.cls.isValueState = true →
        x'.data.name = if s.opens p then n else x.data.name) := by
  induction p generalizing s with
  | nil =>
      cases h
      refine ⟨s, rfl, cls_setName n s, rfl, fun hvalue => ?_⟩
      rw [setName_eq]
      cases hc : s.data.cls with
      | ok => rw [hc] at hvalue; cases hvalue
      | fail => rw [hc] at hvalue; cases hvalue
      | valueString => rfl
      | valueHex => rfl
      | valueInt => rfl
      | valueBin => rfl
      | sendPacket => rfl
      | readPacket => rfl
  | cons i p ih =>
      obtain ⟨t', ht', hx'⟩ := at?_cons h
      have hcls := cls_setName n s
      cases hvalue : s.data.cls.isValueState with
      | false =>
          have hsons : (s.setName n).sons = s.sons.map (setName n) := by
            rw [setName_eq]
            cases hc : s.data.cls <;> first | rfl | (rw [hc] at hvalue; cases hvalue)
          rw [hsons, List.getElem?_map] at ht'
          obtain ⟨t, ht, rfl⟩ := Option.map_eq_some_iff.mp ht'
          obtain ⟨x, hx, hxcls, hopens, hname⟩ := ih hx'
          refine ⟨x, ?_, hxcls, ?_, ?_⟩
          · rw [at?, ht]
            exact hx
          · rw [opens_cons p ht, opens_cons p (by rw [hsons, List.getElem?_map, ht]; rfl), hcls,
              hopens]
          · rw [opens_cons p ht, hvalue]
            exact hname
      | true =>
          have hsons : (s.setName n).sons = s.sons := by
            rw [setName_eq]
            cases hc : s.data.cls <;> first | rfl | (rw [hc] at hvalue; cases hvalue)
          rw [hsons] at ht'
          refine ⟨x', ?_, rfl, ?_, fun _ => ?_⟩
          · rw [at?, ht']
            exact hx'
          · rw [opens_cons p ht', opens_cons p (by rw [hsons]; exact ht'), hcls]
          · rw [opens_cons p ht', hvalue]
            rfl

end State

/-! ## Where a state is made -/

/-- Whether the state of a node that is no alternation hands a name on. -/
def handsNameOn (sons : List Composite) : Bool :=
  match factoryAction sons with
  | .returnAction => true
  | .command c => c.stateClass == .ok
  | _ => false

/-- The state at an address of what a node returns is made below alternations that
select `ors`, the outermost one first.  Of these `names` are the ones whose name
gets to it, and `isOpen` says whether the name of an alternation around the node
would. -/
inductive Made (sel : Nat → Nat) : Composite → List Nat → List Nat → List Nat → Bool → Prop where
  | own {c : Composite} (h : c.isOr = false) : Made sel c [] [] [] true
  | received {id : Nat} {name : Bytes} {sons : List Composite} {i : Nat} (hi : sons.length ≤ i) :
      Made sel (.node .composite id name sons) [i] [] [] (handsNameOn sons)
  | son {id : Nat} {name : Bytes} {sons : List Composite} {i : Nat} {d : Composite}
      {p ors names : List Nat} {isOpen : Bool} (hd : sons[i]? = some d)
      (h : Made sel d p ors names isOpen) :
      Made sel (.node .composite id name sons) (i :: p) ors names (handsNameOn sons && isOpen)
  | alternative {id : Nat} {name : Bytes} {sons : List Composite} {d : Composite}
      {p ors names : List Nat} {isOpen : Bool} (hd : sons[sel id]? = some d)
      (h : Made sel d p ors names isOpen) :
      Made sel (.node .orComposite id name sons) p (sel id :: ors)
        (if isOpen then sel id :: names else names) isOpen
  | copy {id : Nat} {name : Bytes} {sons : List Composite} {k : Nat} :
      Made sel (.node .repeatComposite id name sons) [k] [] [] true
  | copySon {id : Nat} {name : Bytes} {sons : List Composite} {k i : Nat} {d : Composite}
      {p ors names : List Nat} {isOpen : Bool} (hd : sons[i]? = some d)
      (h : Made sel d p ors names isOpen) :
      Made sel (.node .repeatComposite id name sons) (k :: i :: p) ors names isOpen

/-- The name a value has after the alternations `names`. -/
def NamedBy (names : List Nat) (name : String) : Prop :=
  match names with
  | [] => Unnamed name
  | v :: _ => name = anomalyName v

section Runs

variable {P : Platform} {sel : Nat → Nat}

/-- The state of a command hands names on if and only if it is no value. -/
theorem finish_handsOn {c : Command} {id : Nat} {name : Bytes} {result : List State} {e e' : Env}
    {s : State} (h : c.finish P id name result e = .ok (s, e')) :
    (c.stateClass == .ok) = !s.data.cls.isValueState := by
  obtain hcls | ⟨hok, hfail⟩ := finish_returns h
  · rw [hcls]
    cases c <;> rfl
  · rw [hok, hfail]
    rfl

/-- The sons of the state of a command are results, one of them perhaps bound, and
after them what the command adds. -/
theorem finish_getElem? {c : Command} {id : Nat} {name : Bytes} {result : List State} {e e' : Env}
    {s r : State} {i : Nat} (h : c.finish P id name result e = .ok (s, e'))
    (hr : s.sons[i]? = some r) : (∃ t, result[i]? = some t ∧ (r = t ∨ ∃ var, r = t.bind var)) ∨
      (result.length ≤ i ∧ Unnamed r.data.name ∧ r.sons = []) := by
  by_cases hv : c = .variableCommand
  · subst hv
    obtain ⟨_, _, _, _, _, rfl⟩ | ⟨_, _, _, _, _, _, rfl⟩ := runVariable_ok h
    · exact .inl ⟨r, hr, .inl rfl⟩
    · exact .inl ⟨r, hr, .inl rfl⟩
  · by_cases hm : c = .memorizeCommand
    · subst hm
      obtain ⟨_, _, _, _, _, rfl⟩ | ⟨var, t, _, _, ht, _, rfl⟩ := runMemorize_ok h
      · exact .inl ⟨r, hr, .inl rfl⟩
      · have hset : (result.set 2 (t.bind var))[i]? = some r := hr
        rw [List.getElem?_set] at hset
        split at hset
        · next hi =>
            subst hi
            split at hset
            · exact .inl ⟨t, ht, .inr ⟨var, (Option.some.inj hset).symm⟩⟩
            · cases hset
        · exact .inl ⟨r, hset, .inl rfl⟩
    · obtain ⟨_, hfin⟩ := finish_ok hv hm h
      cases hfin.sons with
      | inl hnil =>
          rw [hnil] at hr
          cases hr
      | inr hkeep =>
          obtain ⟨extra, hextra, hplain⟩ := hkeep
          rw [hextra] at hr
          by_cases hi : i < result.length
          · rw [List.getElem?_append_left hi] at hr
            exact .inl ⟨r, hr, .inl rfl⟩
          · rw [List.getElem?_append_right (Nat.le_of_not_lt hi)] at hr
            obtain ⟨hp, _, hnil⟩ := hplain r (List.mem_of_getElem? hr)
            exact .inr ⟨Nat.le_of_not_lt hi, hp.name ▸ unnamed_type _, hnil⟩

/-- The state of a `Composite` hands names on as its strategy says, and its sons
are the results of the sons of the node. -/
theorem eval_composite_sons {id : Nat} {name : Bytes} {sons : List Composite} {e e' : Env}
    {s : State} (h : eval P sel (.node .composite id name sons) e = .ok (s, e')) :
    handsNameOn sons = !s.data.cls.isValueState ∧ ∀ i r, s.sons[i]? = some r →
      (∃ d ed ed' t, sons[i]? = some d ∧ eval P sel d ed = .ok (t, ed') ∧
        (r = t ∨ ∃ var, r = t.bind var)) ∨
      (sons.length ≤ i ∧ Unnamed r.data.name ∧ r.sons = []) := by
  rw [eval, strategyOf] at h
  obtain ha | ⟨socket, ha⟩ | ⟨socket, ha⟩ | ⟨cmd, ha⟩ := factoryAction_cases sons
  · rw [ha, runAction] at h
    obtain ⟨hbrk, hcls⟩ := returnAction_sons h
    refine ⟨?_, fun i r hr => ?_⟩
    · rw [handsNameOn, ha]
      obtain hc | hc := hcls <;> rw [hc] <;> rfl
    · obtain ⟨d, ed, ed', hd, _, heval⟩ := evalSonsReturn_getElem? hbrk hr
      exact .inl ⟨d, ed, ed', r, hd, heval, .inl rfl⟩
  · rw [ha, runAction] at h
    obtain ⟨result, e₁, hrun, hs, _⟩ := sendAction_ok h
    refine ⟨?_, fun i r hr => ?_⟩
    · rw [handsNameOn, ha, hs, sentState_cls]
      rfl
    · rw [hs, sentState_sons] at hr
      obtain ⟨d, ed, ed', hd, _, heval⟩ := evalSons_getElem? hrun hr
      exact .inl ⟨d, ed, ed', r, hd, heval, .inl rfl⟩
  · rw [ha, runAction] at h
    obtain ⟨_, o, result, res, _, _, hround, _, hs, _⟩ := readAction_ok h
    obtain ⟨_, _, _, hrun, rfl⟩ := readRound_frame hround
    have hsame : s.data.cls = .readPacket ∧ s.sons = result := by
      obtain ⟨_, hnil⟩ := frameOf_unbound P id o
      have hcls := frameOf_cls P id o
      have hsons : ((frameOf P id o).push result).sons = result := by
        rw [State.sons_push, hnil, List.nil_append]
      rw [hs]
      split
      · exact ⟨hcls, hsons⟩
      · rw [State.setPacketValue, State.setStateValue_data, State.setStateValue_sons]
        exact ⟨hcls, hsons⟩
    refine ⟨?_, fun i r hr => ?_⟩
    · rw [handsNameOn, ha, hsame.1]
      rfl
    · rw [hsame.2] at hr
      obtain ⟨d, ed, ed', hd, _, heval⟩ := evalSons_getElem? hrun hr
      exact .inl ⟨d, ed, ed', r, hd, heval, .inl rfl⟩
  · rw [ha, runAction] at h
    obtain ⟨_, result, e₁, hrun, hfinish⟩ := commandActionOn_ok h
    refine ⟨?_, fun i r hr => ?_⟩
    · rw [handsNameOn, ha]
      exact finish_handsOn hfinish
    · obtain ⟨t, ht, hrt⟩ | ⟨hi, hname⟩ := finish_getElem? hfinish hr
      · obtain ⟨d, ed, ed', hd, _, heval⟩ := evalSons_getElem? hrun ht
        exact .inl ⟨d, ed, ed', t, hd, heval, hrt⟩
      · rw [evalSons_length hrun] at hi
        exact .inr ⟨hi, hname⟩

/-- What an action calls its own state is no anomaly. -/
theorem eval_unnamed {c : Composite} {e e' : Env} {s : State} (hor : c.isOr = false)
    (h : eval P sel c e = .ok (s, e')) (hvalue : s.data.cls.isValueState = true) :
    Unnamed s.data.name := by
  cases c with
  | leaf kind id name =>
      rw [eval, Comp.pure_ok] at h
      rw [h.1]
      cases kind with
      | stringLeaf => exact unnamed_type .valueString
      | hexLeaf => exact unnamed_type .valueHex
      | decLeaf => exact unnamed_type .valueInt
      | binLeaf => exact unnamed_type .valueBin
      | commandComposite => exact unnamed_type .ok
  | node kind id name sons =>
      rw [eval] at h
      cases kind with
      | orComposite => cases hor
      | repeatComposite =>
          obtain ⟨results, _, rfl⟩ := repeatAction_ok h
          cases hvalue
      | composite =>
          rw [strategyOf] at h
          obtain ha | ⟨socket, ha⟩ | ⟨socket, ha⟩ | ⟨cmd, ha⟩ := factoryAction_cases sons
          · rw [ha, runAction] at h
            obtain ⟨_, hc | hc⟩ := returnAction_sons h
            · rw [hc] at hvalue
              cases hvalue
            · rw [hc] at hvalue
              cases hvalue
          · rw [ha, runAction] at h
            obtain ⟨result, e₁, _, hs, _⟩ := sendAction_ok h
            rw [hs, sentState, State.setPacketValue, State.setStateValue_data, State.data_push]
            split
            · exact (by decide : Unnamed "Data sent")
            · exact unnamed_type .sendPacket
          · rw [ha, runAction] at h
            obtain ⟨_, o, result, res, _, _, hround, _, hs, _⟩ := readAction_ok h
            obtain ⟨_, _, _, _, rfl⟩ := readRound_frame hround
            have hname : Unnamed (frameOf P id o).data.name := by
              unfold frameOf
              split
              · exact (by decide : Unnamed "Data received")
              · exact (by decide : Unnamed "No Packet Received")
            rw [hs]
            split
            · exact hname
            · rw [State.setPacketValue, State.setStateValue_data]
              exact hname
          · rw [ha, runAction] at h
            obtain ⟨_, result, e₁, _, hfinish⟩ := commandActionOn_ok h
            by_cases hv : cmd = .variableCommand
            · subst hv
              obtain ⟨_, v, _, _, _, rfl⟩ | ⟨_, _, _, _, _, _, rfl⟩ := runVariable_ok hfinish
              · have hname : ((copyState P id v).push result).data.name =
                    "Variable: " ++ v.data.name := rfl
                rw [hname, Unnamed, String.toList_append]
                simp
              · exact unnamed_type .valueHex
            · by_cases hm : cmd = .memorizeCommand
              · subst hm
                obtain ⟨_, _, _, _, _, rfl⟩ | ⟨_, _, _, _, _, _, rfl⟩ := runMemorize_ok hfinish
                · exact unnamed_type .valueHex
                · exact unnamed_type .valueHex
              · obtain ⟨_, hfin⟩ := finish_ok hv hm hfinish
                exact hfin.plain.name ▸ unnamed_type _

/-- A value has the name of the outermost alternation whose name gets to it. -/
theorem made_name {c : Composite} {p ors names : List Nat} {isOpen : Bool}
    (h : Made sel c p ors names isOpen) {e e' : Env} {s x : State}
    (hrun : eval P sel c e = .ok (s, e')) (hx : s.at? p = some x) :
    s.opens p = isOpen ∧ (x.data.cls.isValueState = true → NamedBy names x.data.name) := by
  induction h generalizing e e' s x with
  | own hor =>
      cases hx
      exact ⟨rfl, eval_unnamed hor hrun⟩
  | @received id name sons i hi =>
      obtain ⟨hands, hsons⟩ := eval_composite_sons hrun
      obtain ⟨r, hr, hrx⟩ := State.at?_cons hx
      cases hrx
      refine ⟨?_, fun _ => ?_⟩
      · rw [State.opens_cons [] hr, hands, State.opens, Bool.and_true]
      · obtain ⟨d, _, _, _, hd, _⟩ | ⟨_, hname, _⟩ := hsons i x hr
        · obtain ⟨hlt, _⟩ := List.getElem?_eq_some_iff.mp hd
          exact absurd hlt (Nat.not_lt_of_le hi)
        · exact hname
  | @son id name sons i d p ors names isOpen hd _ ih =>
      obtain ⟨hands, hsons⟩ := eval_composite_sons hrun
      obtain ⟨r, hr, hrx⟩ := State.at?_cons hx
      rw [State.opens_cons p hr, hands]
      obtain ⟨d', ed, ed', t, hd', heval, hrt⟩ | ⟨hi, _⟩ := hsons i r hr
      · rw [hd] at hd'
        cases hd'
        obtain ⟨x₀, hx₀, hcls, hname, hopens⟩ : ∃ x₀, t.at? p = some x₀ ∧
            x.data.cls = x₀.data.cls ∧ x.data.name = x₀.data.name ∧ r.opens p = t.opens p := by
          obtain rfl | ⟨var, rfl⟩ := hrt
          · exact ⟨x, hrx, rfl, rfl, rfl⟩
          · refine State.at?_congr ?_ ?_ ?_ hrx
            · rw [State.bind, State.sons_update]
            · rw [State.bind, State.data_update]
            · rw [State.bind, State.data_update]
        obtain ⟨ho, hn⟩ := ih heval hx₀
        rw [hopens, ho, hcls, hname]
        exact ⟨rfl, hn⟩
      · obtain ⟨hlt, _⟩ := List.getElem?_eq_some_iff.mp hd
        exact absurd hlt (Nat.not_lt_of_le hi)
  | @alternative id name sons d p ors names isOpen hd _ ih =>
      rw [eval] at hrun
      obtain ⟨result, e₁, hall, hselect⟩ := injectAction_ok hrun
      obtain ⟨r, hr, rfl, _⟩ := selectResult_ok hselect
      obtain ⟨d', ed, ed', hd', _, heval⟩ := evalSons_getElem? hall hr
      rw [hd] at hd'
      cases hd'
      obtain ⟨x₁, hx₁, hcls, hopens, hname⟩ := State.at?_setName _ hx
      obtain ⟨x₀, hx₀, hcls₀, hname₀, hopens₀⟩ := State.at?_congr
        (State.setStateValue_sons _ r) (by rw [State.setStateValue_data])
        (by rw [State.setStateValue_data]) hx₁
      obtain ⟨ho, hn⟩ := ih heval hx₀
      have hopen : r.setFaultValue.opens p = isOpen := hopens₀.trans ho
      refine ⟨hopens.trans hopen, fun hvalue => ?_⟩
      rw [hcls] at hvalue
      rw [hname hvalue, hopen]
      cases isOpen with
      | true => exact rfl
      | false =>
          rw [hcls₀] at hvalue
          rw [if_neg Bool.false_ne_true, if_neg Bool.false_ne_true, hname₀]
          exact hn hvalue
  | @copy id name sons k =>
      rw [eval] at hrun
      obtain ⟨results, hruns, rfl⟩ := repeatAction_ok hrun
      obtain ⟨r, hr, hrx⟩ := State.at?_cons hx
      cases hrx
      obtain ⟨_, _, _, _, _, _, hcopy⟩ :=
        runTimes_mem hruns (List.mem_of_getElem? (show results[k]? = some x from hr))
      obtain ⟨_, hcls⟩ := returnAction_sons hcopy
      refine ⟨by rw [State.opens_cons [] hr]; rfl, fun hvalue => ?_⟩
      obtain hc | hc := hcls
      · rw [hc] at hvalue
        cases hvalue
      · rw [hc] at hvalue
        cases hvalue
  | @copySon id name sons k i d p ors names isOpen hd _ ih =>
      rw [eval] at hrun
      obtain ⟨results, hruns, rfl⟩ := repeatAction_ok hrun
      obtain ⟨r, hr, hrx⟩ := State.at?_cons hx
      obtain ⟨_, _, _, _, _, _, hcopy⟩ :=
        runTimes_mem hruns (List.mem_of_getElem? (show results[k]? = some r from hr))
      obtain ⟨hbrk, hcls⟩ := returnAction_sons hcopy
      obtain ⟨t, ht, htx⟩ := State.at?_cons hrx
      obtain ⟨d', ed, ed', hd', _, heval⟩ := evalSonsReturn_getElem? hbrk ht
      rw [hd] at hd'
      cases hd'
      obtain ⟨ho, hn⟩ := ih heval htx
      refine ⟨?_, hn⟩
      rw [State.opens_cons _ hr, State.opens_cons _ ht, ho]
      obtain hc | hc := hcls <;> rw [hc] <;> rfl

/-- Every state of a run is made somewhere. -/
theorem exists_made (c : Composite) {e e' : Env} {s x : State} {p : List Nat}
    (hrun : eval P sel c e = .ok (s, e')) (hx : s.at? p = some x) :
    ∃ ors names isOpen, Made sel c p ors names isOpen := by
  induction c using Composite.induction generalizing e e' s x p with
  | h c ih =>
      cases c with
      | leaf kind id name =>
          rw [eval, Comp.pure_ok] at hrun
          cases p with
          | nil => exact ⟨[], [], true, .own rfl⟩
          | cons i p =>
              obtain ⟨t, ht, _⟩ := State.at?_cons hx
              rw [hrun.1] at ht
              cases kind <;> cases ht
      | node kind id name sons =>
          cases kind with
          | composite =>
              cases p with
              | nil => exact ⟨[], [], true, .own rfl⟩
              | cons i p =>
                  obtain ⟨r, hr, hrx⟩ := State.at?_cons hx
                  obtain ⟨d, ed, ed', t, hd, heval, hrt⟩ | ⟨hi, _, hnil⟩ :=
                    (eval_composite_sons hrun).2 i r hr
                  · obtain ⟨x₀, hx₀⟩ : ∃ x₀, t.at? p = some x₀ := by
                      obtain rfl | ⟨var, rfl⟩ := hrt
                      · exact ⟨x, hrx⟩
                      · obtain ⟨x₀, hx₀, _⟩ := State.at?_congr (s := t)
                          (by rw [State.bind, State.sons_update])
                          (by rw [State.bind, State.data_update])
                          (by rw [State.bind, State.data_update]) hrx
                        exact ⟨x₀, hx₀⟩
                    obtain ⟨ors, names, isOpen, hmade⟩ :=
                      ih d (List.mem_of_getElem? hd) heval hx₀
                    exact ⟨ors, names, _, .son hd hmade⟩
                  · cases p with
                    | nil => exact ⟨[], [], _, .received hi⟩
                    | cons j p =>
                        obtain ⟨t, ht, _⟩ := State.at?_cons hrx
                        rw [hnil] at ht
                        cases ht
          | orComposite =>
              rw [eval] at hrun
              obtain ⟨result, e₁, hall, hselect⟩ := injectAction_ok hrun
              obtain ⟨r, hr, rfl, _⟩ := selectResult_ok hselect
              obtain ⟨d, ed, ed', hd, _, heval⟩ := evalSons_getElem? hall hr
              obtain ⟨x₁, hx₁, _⟩ := State.at?_setName _ hx
              obtain ⟨x₀, hx₀, _⟩ := State.at?_congr
                (State.setStateValue_sons _ r) (by rw [State.setStateValue_data])
                (by rw [State.setStateValue_data]) hx₁
              obtain ⟨ors, names, isOpen, hmade⟩ := ih d (List.mem_of_getElem? hd) heval hx₀
              exact ⟨_, _, isOpen, .alternative hd hmade⟩
          | repeatComposite =>
              rw [eval] at hrun
              obtain ⟨results, hruns, rfl⟩ := repeatAction_ok hrun
              cases p with
              | nil => exact ⟨[], [], true, .own rfl⟩
              | cons k p =>
                  cases p with
                  | nil => exact ⟨[], [], true, .copy⟩
                  | cons i p =>
                      obtain ⟨r, hr, hrx⟩ := State.at?_cons hx
                      obtain ⟨_, _, _, _, _, _, hcopy⟩ := runTimes_mem hruns
                        (List.mem_of_getElem? (show results[k]? = some r from hr))
                      obtain ⟨hbrk, _⟩ := returnAction_sons hcopy
                      obtain ⟨t, ht, htx⟩ := State.at?_cons hrx
                      obtain ⟨d, ed, ed', hd, _, heval⟩ := evalSonsReturn_getElem? hbrk ht
                      obtain ⟨ors, names, isOpen, hmade⟩ :=
                        ih d (List.mem_of_getElem? hd) heval htx
                      exact ⟨ors, names, isOpen, .copySon hd hmade⟩

end Runs

/-! ## The runs of the program -/

/-- The names that get to a state are given by alternations above it. -/
theorem Made.names_subset {sel : Nat → Nat} {c : Composite} {p ors names : List Nat}
    {isOpen : Bool} (h : Made sel c p ors names isOpen) : names ⊆ ors := by
  induction h with
  | own _ => exact List.nil_subset _
  | received _ => exact List.nil_subset _
  | son _ _ ih => exact ih
  | @alternative _ _ _ _ _ _ _ isOpen _ _ ih =>
      cases isOpen with
      | true => exact List.cons_subset_cons _ ih
      | false => exact List.subset_cons_of_subset _ ih
  | copy => exact List.nil_subset _
  | copySon _ _ ih => exact ih

/-- The outermost alternation whose name gets to a state has selected an anomaly. -/
def NamesAnomaly (names : List Nat) : Prop := ∃ v, names.head? = some v ∧ v ≠ 0

/-- An anomaly is visible in the name of a value: it is that of an anomaly exactly
if an alternation above the value has selected one. -/
def AnomalyShown (ors : List Nat) (name : String) : Prop :=
  (∃ v ∈ ors, v ≠ 0) ↔ ∃ n, 1 ≤ n ∧ name = anomalyName n

theorem namedBy_iff {names : List Nat} {name : String} (h : NamedBy names name) :
    (∃ n, 1 ≤ n ∧ name = anomalyName n) ↔ NamesAnomaly names := by
  cases names with
  | nil =>
      constructor
      · rintro ⟨n, _, hn⟩
        exact absurd hn (h.ne n)
      · rintro ⟨v, hv, _⟩
        cases hv
  | cons v names =>
      rw [NamedBy] at h
      constructor
      · rintro ⟨n, hn, heq⟩
        rw [h] at heq
        exact ⟨v, rfl, by rw [anomalyName_injective heq]; omega⟩
      · rintro ⟨u, hu, hne⟩
        cases hu
        exact ⟨v, by omega, h⟩

namespace Main

/-- In every run of the program, an anomaly is visible in the name of a value if
and only if the outermost alternation whose name gets there has selected an
anomaly whenever any alternation above has. -/
theorem anomaly_shown_iff (P : Platform) (t : ParsedTree) (g : TSGenerator)
    (reads : List ReadOutcome) (sends : List Int) (m : Main) (s : State) (w' : World)
    (h : Reachable P t g { reads := reads, sends := sends } m)
    (hrun : runTest P t.root m.world = .ok (s, w')) (p : List Nat) (x : State)
    (hx : s.at? p = some x) (hvalue : x.data.cls.isValueState = true) :
    (∃ ors names isOpen, Made m.world.selected t.root p ors names isOpen) ∧
      ∀ ors names isOpen, Made m.world.selected t.root p ors names isOpen →
        (AnomalyShown ors x.data.name ↔ ((∃ v ∈ ors, v ≠ 0) → NamesAnomaly names)) := by
  obtain ⟨extra, hw⟩ := h.inv.valid
  have heval := World.eval_of_runTest hw (Composite.mem_nodes_self t.root) hrun
  refine ⟨exists_made t.root heval hx, fun ors names isOpen hmade => ?_⟩
  obtain ⟨_, hname⟩ := made_name hmade heval hx
  rw [AnomalyShown, namedBy_iff (hname hvalue)]
  constructor
  · exact fun hshown => hshown.mp
  · intro hreach
    refine ⟨hreach, ?_⟩
    rintro ⟨v, hv, hne⟩
    exact ⟨v, hmade.names_subset (List.mem_of_mem_head? hv), hne⟩

/-- `"a" / "b"` in brackets. -/
def innerChoice : Composite :=
  .node .composite 2 (ascii "()")
    [.node .orComposite 3 (ascii "/")
      [.leaf .stringLeaf 4 (ascii "\\\"a\\\""), .leaf .stringLeaf 5 (ascii "\\\"b\\\"")]]

/-- Two alternations one in the other, as in `r = ("a" / "b") / "c"`. -/
def nestedChoice : ParsedTree where
  root := .node .composite 0 (ascii "r")
    [.node .orComposite 1 (ascii "/")
      [innerChoice, .leaf .stringLeaf 6 (ascii "\\\"c\\\"")]]
  nodup := by decide
  sons_ne_nil := by decide
  alternatives := by decide
  size := by decide

/-- The test case of `nestedChoice` that enables the inner alternation only. -/
def nestedChoiceThird : Main := after ⟨id, 0⟩ nestedChoice 7 (start nestedChoice .exp {})

/-- The value of that test case lies below both alternations. -/
theorem made_nestedChoice : Made nestedChoiceThird.world.selected nestedChoice.root [0, 0]
    [0, 1] [0, 1] true := by
  have houter : nestedChoiceThird.world.selected 1 = 0 := by decide
  have hinner : nestedChoiceThird.world.selected 3 = 1 := by decide
  have hleaf : Made nestedChoiceThird.world.selected
      (.leaf .stringLeaf 5 (ascii "\\\"b\\\"")) [] [] [] true := .own rfl
  have hone : Made nestedChoiceThird.world.selected
      (.node .orComposite 3 (ascii "/")
        [.leaf .stringLeaf 4 (ascii "\\\"a\\\""), .leaf .stringLeaf 5 (ascii "\\\"b\\\"")]) []
      [nestedChoiceThird.world.selected 3] [nestedChoiceThird.world.selected 3] true :=
    .alternative (by rw [hinner]; rfl) hleaf
  have hbrackets : Made nestedChoiceThird.world.selected innerChoice [0]
      [nestedChoiceThird.world.selected 3] [nestedChoiceThird.world.selected 3] true :=
    .son rfl hone
  have hboth : Made nestedChoiceThird.world.selected
      (.node .orComposite 1 (ascii "/") [innerChoice, .leaf .stringLeaf 6 (ascii "\\\"c\\\"")]) [0]
      [nestedChoiceThird.world.selected 1, nestedChoiceThird.world.selected 3]
      [nestedChoiceThird.world.selected 1, nestedChoiceThird.world.selected 3] true :=
    .alternative (by rw [houter]; rfl) hbrackets
  rw [houter, hinner] at hboth
  exact .son rfl hboth

/-- The value of that test case is named after the outer alternation. -/
theorem name_nestedChoice {s : State} {w' : World}
    (hrun : runTest ⟨id, 0⟩ nestedChoice.root nestedChoiceThird.world = .ok (s, w')) :
    ∃ x, s.at? [0, 0] = some x ∧ x.data.cls.isValueState = true ∧
      x.data.name = anomalyName 0 := by
  have hname : (runTest ⟨id, 0⟩ nestedChoice.root nestedChoiceThird.world).map (fun p =>
      (p.1.at? [0, 0]).map fun x => (x.data.cls.isValueState, x.data.name)) =
        .ok (some (true, anomalyName 0)) := by decide
  rw [hrun] at hname
  obtain ⟨x, hx, hpair⟩ := Option.map_eq_some_iff.mp (Except.ok.inj hname)
  exact ⟨x, hx, congrArg Prod.fst hpair, congrArg Prod.snd hpair⟩

theorem anomaly_shown_iff_nestedChoice : ∃ s w' x,
    runTest ⟨id, 0⟩ nestedChoice.root nestedChoiceThird.world = .ok (s, w') ∧
      s.at? [0, 0] = some x ∧ (AnomalyShown [0, 1] x.data.name ↔
        ((∃ v ∈ [0, 1], v ≠ 0) → NamesAnomaly [0, 1])) := by
  have hok : (runTest ⟨id, 0⟩ nestedChoice.root nestedChoiceThird.world).isOk = true := by decide
  cases hrun : runTest ⟨id, 0⟩ nestedChoice.root nestedChoiceThird.world with
  | error x =>
      rw [hrun] at hok
      cases hok
  | ok p =>
      obtain ⟨x, hx, hvalue, _⟩ := name_nestedChoice hrun
      exact ⟨p.1, p.2, x, rfl, hx, (anomaly_shown_iff ⟨id, 0⟩ nestedChoice .exp [] [] _ p.1 p.2
        (reachable_after _ _ _ _ _) hrun [0, 0] x hx hvalue).2 _ _ _ made_nestedChoice⟩

/-- The inner alternation selects an anomaly, and the outer one hides it. -/
theorem anomaly_is_renamed :
    ¬ ∀ (P : Platform) (t : ParsedTree) (g : TSGenerator) (reads : List ReadOutcome)
      (sends : List Int) (m : Main) (s : State) (w' : World),
      Reachable P t g { reads := reads, sends := sends } m →
        runTest P t.root m.world = .ok (s, w') →
          ∀ (p : List Nat) (x : State), s.at? p = some x → x.data.cls.isValueState = true →
            ∀ ors names isOpen, Made m.world.selected t.root p ors names isOpen →
              AnomalyShown ors x.data.name := by
  intro hall
  have hok : (runTest ⟨id, 0⟩ nestedChoice.root nestedChoiceThird.world).isOk = true := by decide
  cases hrun : runTest ⟨id, 0⟩ nestedChoice.root nestedChoiceThird.world with
  | error x =>
      rw [hrun] at hok
      cases hok
  | ok p =>
      obtain ⟨x, hx, hvalue, hname⟩ := name_nestedChoice hrun
      have hshown := hall ⟨id, 0⟩ nestedChoice .exp [] [] _ p.1 p.2 (reachable_after _ _ _ _ _)
        hrun [0, 0] x hx hvalue _ _ _ made_nestedChoice
      obtain ⟨n, hn, hanomaly⟩ := hshown.mp ⟨1, by decide, by decide⟩
      rw [hname] at hanomaly
      rw [← anomalyName_injective hanomaly] at hn
      cases hn

end Main

end Stress

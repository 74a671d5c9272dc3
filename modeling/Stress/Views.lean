import Stress.Effects

/-!
# What the reader of a state sees

A state can be asked for the bytes it sends, for a text and for a number.  The
actions ask every result for its bytes, and only some commands ask some of their
arguments for the text or the number (`Command.reads`).  So a node may be replaced
by another one that sends the same, as long as the views that are read in its place
are the same too.

`StandsFor` says when one tree can stand in the place of another.  Besides equal
nodes there are nodes of other names where nobody reads the name, a leaf in the place
of a node around it that shows the views of the leaf, and a node around an alternation
where only the bytes are read.  `StandsFor.alike` says that the runs of the two trees
make the same calls.
-/

namespace Stress

/-- The views of a state, besides its bytes, that count in a place. -/
structure Views where
  string : Bool := false
  integer : Bool := false
deriving DecidableEq, Repr

/-! ## States -/

/-- The states are the same for whoever asks for the views `v`. -/
structure Alike (v : Views) (s s' : State) : Prop where
  wire : s.getStringToSend = s'.getStringToSend
  fail : s.isFailValue = s'.isFailValue
  wires : s.wires = s'.wires
  string : v.string = true → s.getStringValue = s'.getStringValue
  integer : v.integer = true → s.getIntegerValue = s'.getIntegerValue

/-- The data of two states that have the same views. -/
structure SameData (d d' : StateData) : Prop where
  cls : d.cls = d'.cls
  raw : d.rawValue = d'.rawValue
  string : d.stringValue = d'.stringValue
  integer : d.intValue = d'.intValue
  mark : d.stateValue = d'.stateValue
  bound : d.boundAs = d'.boundAs

/-- The sons send the same and have the same variables. -/
structure SameSons (ss ss' : List State) : Prop where
  wire : ss.flatMap State.getStringToSend = ss'.flatMap State.getStringToSend
  wires : ss.flatMap State.wires = ss'.flatMap State.wires

theorem SameSons.nil : SameSons [] [] := ⟨rfl, rfl⟩

theorem SameSons.append {ss ss' ts ts' : List State} (h : SameSons ss ss') (ht : SameSons ts ts') :
    SameSons (ss ++ ts) (ss' ++ ts') where
  wire := by rw [List.flatMap_append, List.flatMap_append, h.wire, ht.wire]
  wires := by rw [List.flatMap_append, List.flatMap_append, h.wires, ht.wires]

/-- The states differ in their ids and their names only, and so do their sons as far
as they can be seen. -/
structure SameState (s s' : State) : Prop where
  data : SameData s.data s'.data
  sons : SameSons s.sons s'.sons

namespace SameState

variable {s s' : State}

theorem refl (s : State) : SameState s s := ⟨⟨rfl, rfl, rfl, rfl, rfl, rfl⟩, ⟨rfl, rfl⟩⟩

theorem push {ss ss' : List State} (h : SameState s s') (hs : SameSons ss ss') :
    SameState (s.push ss) (s'.push ss') :=
  ⟨h.data, h.sons.append hs⟩

theorem bind (h : SameState s s') (var : Bytes) : SameState (s.bind var) (s'.bind var) where
  data := by
    rw [State.bind, State.bind, State.data_update, State.data_update]
    exact ⟨h.data.cls, h.data.raw, h.data.string, h.data.integer, h.data.mark,
      congrArg (var :: ·) h.data.bound⟩
  sons := by
    rw [State.bind, State.bind, State.sons_update, State.sons_update]
    exact h.sons

theorem alike {v : Views} (h : SameState s s') : Alike v s s' := by
  have hwire : s.getStringToSend = s'.getStringToSend := by
    rw [State.getStringToSend_eq, State.getStringToSend_eq s', h.data.cls, h.data.string,
      h.data.integer, h.sons.wire, StateData.raw, StateData.raw, StateData.binStringToSend,
      StateData.binStringToSend, StateData.raw, StateData.raw, h.data.raw, h.data.string,
      h.data.integer]
  refine ⟨hwire, ?_, ?_, fun _ => h.data.string, fun _ => ?_⟩
  · rw [State.isFailValue, State.isFailValue, h.data.mark]
  · rw [State.wires_eq, State.wires_eq s', hwire, h.data.bound, h.sons.wires]
  · rw [State.getIntegerValue, State.getIntegerValue, h.data.cls, h.data.integer, StateData.raw,
      StateData.raw, h.data.raw]

end SameState

/-- A state of the class `OkState` or `FailState` sends what its sons send. -/
theorem Alike.of_sons {v : Views} {s s' : State} (hcls : s.data.cls = .ok ∨ s.data.cls = .fail)
    (hcls' : s'.data.cls = .ok ∨ s'.data.cls = .fail) (hsons : SameSons s.sons s'.sons)
    (hbound : s.data.boundAs = []) (hbound' : s'.data.boundAs = [])
    (hfail : s.isFailValue = s'.isFailValue)
    (hstring : v.string = true → s.data.stringValue = s'.data.stringValue)
    (hinteger : v.integer = true → s.data.intValue = s'.data.intValue) : Alike v s s' := by
  have hsend : ∀ {t : State}, t.data.cls = .ok ∨ t.data.cls = .fail →
      t.getStringToSend = t.sons.flatMap State.getStringToSend ∧
        t.getIntegerValue = .ok t.data.intValue := by
    intro t ht
    rw [State.getStringToSend_eq, State.getIntegerValue]
    obtain h | h := ht <;> rw [h] <;> exact ⟨rfl, rfl⟩
  refine ⟨?_, hfail, ?_, hstring, fun hv => ?_⟩
  · rw [(hsend hcls).1, (hsend hcls').1, hsons.wire]
  · rw [State.wires_of_unbound hbound, State.wires_of_unbound hbound', hsons.wires]
  · rw [(hsend hcls).2, (hsend hcls').2, hinteger hv]

theorem Alike.bind {v : Views} {s s' : State} (h : Alike v s s') (var : Bytes) :
    Alike v (s.bind var) (s'.bind var) where
  wire := by rw [State.getStringToSend_bind, State.getStringToSend_bind, h.wire]
  fail := by
    have hbind : ∀ t : State, (t.bind var).isFailValue = t.isFailValue := fun t => by
      rw [State.isFailValue, State.isFailValue, State.bind, State.data_update]
    rw [hbind, hbind, h.fail]
  wires := by rw [State.wires_bind, State.wires_bind, h.wire, h.wires]
  string hv := by
    have hbind : ∀ t : State, (t.bind var).getStringValue = t.getStringValue := fun t => by
      rw [State.getStringValue, State.getStringValue, State.bind, State.data_update]
    rw [hbind, hbind, h.string hv]
  integer hv := by
    have hbind : ∀ t : State, (t.bind var).getIntegerValue = t.getIntegerValue := fun t => by
      rw [State.getIntegerValue, State.getIntegerValue, State.bind, State.data_update]
      rfl
    rw [hbind, hbind, h.integer hv]

theorem SameData.setName (n : String) (s : State) : SameData (s.setName n).data s.data := by
  rw [State.setName_eq]
  cases s.data.cls <;> exact ⟨rfl, rfl, rfl, rfl, rfl, rfl⟩

/-- Selecting a result changes its mark and its name. -/
theorem State.views_select (t : State) (n : String) :
    (t.setFaultValue.setName n).getStringValue = t.getStringValue ∧
      (t.setFaultValue.setName n).getIntegerValue = t.getIntegerValue ∧
      (t.setFaultValue.setName n).isFailValue = false := by
  have hdata := SameData.setName n t.setFaultValue
  refine ⟨?_, ?_, ?_⟩
  · rw [State.getStringValue, hdata.string]
    simp only [State.setFaultValue, State.setStateValue_data]
    rfl
  · rw [State.getIntegerValue, State.getIntegerValue, hdata.cls, StateData.raw, StateData.raw,
      hdata.raw, hdata.integer]
    simp only [State.setFaultValue, State.setStateValue_data]
  · rw [State.isFailValue, hdata.mark]
    simp only [State.setFaultValue, State.setStateValue_data]
    rfl

/-- A result that has not failed is the same once it is selected. -/
theorem Alike.selected {v : Views} {s s' : State} (h : Alike v s s') (hok : s.isFailValue = false)
    (n : String) : Alike v s (s'.setFaultValue.setName n) := by
  obtain ⟨hstring, hinteger, hfail⟩ := s'.views_select n
  refine ⟨?_, hok.trans hfail.symm, ?_, fun hv => ?_, fun hv => ?_⟩
  · simp only [State.getStringToSend_setName, State.setFaultValue,
      State.getStringToSend_setStateValue, h.wire]
  · simp only [State.wires_setName, State.setFaultValue, State.wires_setStateValue, h.wires]
  · rw [hstring, h.string hv]
  · rw [hinteger, h.integer hv]

theorem Alike.select {v : Views} {s s' : State} (h : Alike v s s') (n : String) :
    Alike v (s.setFaultValue.setName n) (s'.setFaultValue.setName n) := by
  obtain ⟨hstring, hinteger, hfail⟩ := s.views_select n
  obtain ⟨hstring', hinteger', hfail'⟩ := s'.views_select n
  refine ⟨?_, ?_, ?_, fun hv => ?_, fun hv => ?_⟩
  · simp only [State.getStringToSend_setName, State.setFaultValue,
      State.getStringToSend_setStateValue, h.wire]
  · rw [hfail, hfail']
  · simp only [State.wires_setName, State.setFaultValue, State.wires_setStateValue, h.wires]
  · rw [hstring, hstring', h.string hv]
  · rw [hinteger, hinteger', h.integer hv]

/-! ## Results -/

/-- The results are the same for whoever asks the result `k` for the views `vs k`. -/
inductive AlikeAll : (Nat → Views) → List State → List State → Prop where
  | nil (vs : Nat → Views) : AlikeAll vs [] []
  | cons {vs : Nat → Views} {s s' : State} {ss ss' : List State} (h : Alike (vs 0) s s')
      (hs : AlikeAll (fun k => vs (k + 1)) ss ss') : AlikeAll vs (s :: ss) (s' :: ss')

namespace AlikeAll

variable {vs : Nat → Views} {ss ss' : List State}

theorem length_eq (h : AlikeAll vs ss ss') : ss.length = ss'.length := by
  induction h with
  | nil => rfl
  | cons _ _ ih => rw [List.length_cons, List.length_cons, ih]

theorem getElem? (h : AlikeAll vs ss ss') (k : Nat) :
    Option.Rel (Alike (vs k)) ss[k]? ss'[k]? := by
  induction h generalizing k with
  | nil => exact .none
  | cons h _ ih =>
      cases k with
      | zero => exact .some h
      | succ k => exact ih k

theorem sameSons (h : AlikeAll vs ss ss') : SameSons ss ss' := by
  induction h with
  | nil => exact .nil
  | cons h _ ih =>
      constructor
      · rw [List.flatMap_cons, List.flatMap_cons, h.wire, ih.wire]
      · rw [List.flatMap_cons, List.flatMap_cons, h.wires, ih.wires]

/-- What the results send, one by one. -/
theorem map_wire (h : AlikeAll vs ss ss') :
    ss.map State.getStringToSend = ss'.map State.getStringToSend := by
  induction h with
  | nil => rfl
  | cons h _ ih => rw [List.map_cons, List.map_cons, h.wire, ih]

theorem thereIsAFail_eq (h : AlikeAll vs ss ss') : thereIsAFail ss = thereIsAFail ss' := by
  induction h with
  | nil => rfl
  | cons h _ ih =>
      rw [thereIsAFail, thereIsAFail, List.any_cons, List.any_cons, h.fail]
      exact congrArg _ ih

theorem set (h : AlikeAll vs ss ss') {k : Nat} {s s' : State} (hs : Alike (vs k) s s') :
    AlikeAll vs (ss.set k s) (ss'.set k s') := by
  induction h generalizing k with
  | nil => exact .nil _
  | cons h hrest ih =>
      cases k with
      | zero => exact .cons hs hrest
      | succ k => exact .cons h (ih hs)

/-- The variables of all results but one. -/
theorem flatMap_wires_eraseIdx (h : AlikeAll vs ss ss') (k : Nat) :
    (ss.eraseIdx k).flatMap State.wires = (ss'.eraseIdx k).flatMap State.wires := by
  induction h generalizing k with
  | nil => rfl
  | cons h hrest ih =>
      cases k with
      | zero => exact hrest.sameSons.wires
      | succ k =>
          rw [List.eraseIdx_cons_succ, List.eraseIdx_cons_succ, List.flatMap_cons,
            List.flatMap_cons, h.wires, ih]

end AlikeAll

/-! ## Environments -/

theorem rel_cases {α β : Type} {r : α → β → Prop} {x : Option α} {y : Option β}
    (h : Option.Rel r x y) : (x = none ∧ y = none) ∨ ∃ a b, x = some a ∧ y = some b ∧ r a b := by
  cases h with
  | none => exact .inl ⟨rfl, rfl⟩
  | some h => exact .inr ⟨_, _, rfl, rfl, h⟩

/-- The environments are the same for whoever uses a variable, the last frame or a
socket. -/
structure SameSight (e e' : Env) : Prop where
  view : ∀ n, e.view n = e'.view n
  frame : Option.Rel SameState e.lastFrame e'.lastFrame
  reads : e.reads = e'.reads
  sends : e.sends = e'.sends
  trace : e.trace = e'.trace

theorem SameSight.refl (e : Env) : SameSight e e := by
  refine ⟨fun _ => rfl, ?_, rfl, rfl, rfl⟩
  cases e.lastFrame with
  | none => exact .none
  | some f => exact .some (.refl f)

section Environments

variable {e e' : Env} {s s' : State} {n : Bytes}

theorem SameSight.isSome_lookup (h : SameSight e e') (n : Bytes) :
    (e.vars.lookup n).isSome = (e'.vars.lookup n).isSome := by
  have hview := congrArg Option.isSome (h.view n)
  rwa [Env.view, Env.view, Option.isSome_map, Option.isSome_map] at hview

/-- A state is deleted. -/
theorem SameSight.delete (h : SameSight e e') (hs : s.wires = s'.wires) :
    SameSight (e.delete s) (e'.delete s') where
  view n := by
    rw [Env.view_delete, Env.view_delete, State.boundNames_eq_wires, State.boundNames_eq_wires,
      hs, h.view n]
  frame := h.frame
  reads := h.reads
  sends := h.sends
  trace := h.trace

theorem State.lookup_wires (s : State) (n : Bytes) :
    s.wires.lookup n = (s.bindings.lookup n).map State.getStringToSend := by
  rw [State.wires]
  exact lookup_map_snd (fun _ t => State.getStringToSend t) n s.bindings

/-- A state is changed. -/
theorem SameSight.refresh (h : SameSight e e') (hs : s.wires = s'.wires) :
    SameSight (e.refresh s) (e'.refresh s') where
  view n := by
    have hview : ∀ (e : Env) (s : State), (e.refresh s).view n =
        (s.wires.lookup n).elim (e.view n) fun b => (e.view n).map fun o => o.map fun _ => b := by
      intro e s
      rw [Env.view_refresh, State.lookup_wires]
      cases s.bindings.lookup n <;> rfl
    rw [hview, hview, hs, h.view n]
  frame := h.frame
  reads := h.reads
  sends := h.sends
  trace := h.trace

theorem SameSight.foldl_delete (h : SameSight e e') {ts ts' : List State}
    (hts : ts.flatMap State.wires = ts'.flatMap State.wires) :
    SameSight (ts.foldl (fun e t => e.delete t) e) (ts'.foldl (fun e t => e.delete t) e') := by
  obtain ⟨vars, hvars⟩ := foldl_delete_eq ts e
  obtain ⟨vars', hvars'⟩ := foldl_delete_eq ts' e'
  have hnames : ts.flatMap State.boundNames = ts'.flatMap State.boundNames := by
    have hfst := congrArg (List.map Prod.fst) hts
    rw [List.map_flatMap, List.map_flatMap] at hfst
    rw [funext State.boundNames_eq_wires]
    exact hfst
  refine ⟨fun n => ?_, ?_, ?_, ?_, ?_⟩
  · rw [view_foldl_delete, view_foldl_delete, hnames, h.view n]
  · rw [hvars, hvars']
    exact h.frame
  · rw [hvars, hvars']
    exact h.reads
  · rw [hvars, hvars']
    exact h.sends
  · rw [hvars, hvars']
    exact h.trace

theorem SameSight.bound (h : SameSight e e') (hs : s.getStringToSend = s'.getStringToSend) :
    SameSight { e with vars := (n, .live s) :: e.vars }
      { e' with vars := (n, .live s') :: e'.vars } where
  view m := by
    have hview := h.view m
    rw [Env.view, Env.view] at hview ⊢
    rw [List.lookup_cons, List.lookup_cons]
    cases m == n with
    | true => exact congrArg (fun b => some (some b)) hs
    | false => exact hview
  frame := h.frame
  reads := h.reads
  sends := h.sends
  trace := h.trace

end Environments

/-! ## Steps on the environment -/

section Steps

variable {vs : Nat → Views} {result result' : List State} {α : Type}

theorem argument_alike (h : AlikeAll vs result result') (k : Nat) :
    Comp.Sim SameSight (Alike (vs k)) (argument result k) (argument result' k) := by
  rw [argument, argument]
  obtain ⟨hs, hs'⟩ | ⟨s, s', hs, hs', hk⟩ := rel_cases (h.getElem? k)
  · rw [hs, hs']
    exact .fault _
  · rw [hs, hs']
    exact .pure hk

theorem ofExcept_alike (x : Except Fault α) :
    Comp.Sim SameSight Eq (ofExcept x) (ofExcept x) := by
  cases x with
  | error x => exact .fault x
  | ok a => exact .pure rfl

theorem integerArgument_alike (h : AlikeAll vs result result') {k : Nat}
    (hk : (vs k).integer = true) :
    Comp.Sim SameSight Eq (integerArgument result k) (integerArgument result' k) :=
  (argument_alike h k).bind fun s s' hs => by
    rw [hs.integer hk]
    exact ofExcept_alike _

theorem wireArgument_alike (h : AlikeAll vs result result') (k : Nat) :
    Comp.Sim SameSight Eq (wireArgument result k) (wireArgument result' k) :=
  (argument_alike h k).bind fun _ _ hs => .pure hs.wire

theorem checkVariable_alike (n : Bytes) :
    Comp.Sim SameSight Eq (checkVariable n) (checkVariable n) :=
  fun _ _ h => ⟨h.isSome_lookup n, h⟩

theorem getVariable_alike (n : Bytes) :
    Comp.Sim SameSight (fun v v' => v.getStringToSend = v'.getStringToSend) (getVariable n)
      (getVariable n) := by
  intro e e' h
  have hview := h.view n
  rw [Env.view, Env.view] at hview
  rw [getVariable, getVariable]
  cases hb : e.vars.lookup n with
  | none =>
      cases hb' : e'.vars.lookup n with
      | none => rfl
      | some b' =>
          rw [hb, hb'] at hview
          cases hview
  | some b =>
      cases hb' : e'.vars.lookup n with
      | none =>
          rw [hb, hb'] at hview
          cases hview
      | some b' =>
          rw [hb, hb'] at hview
          cases b with
          | live s =>
              cases b' with
              | live s' => exact ⟨Option.some.inj (Option.some.inj hview), h⟩
              | dangling => cases hview
          | dangling =>
              cases b' with
              | live s' => cases hview
              | dangling => rfl

theorem setVariable_alike {R : State → State → Prop} {n : Bytes}
    (hbind : ∀ {s s'}, R s s' → R (s.bind n) (s'.bind n))
    (hwire : ∀ {s s'}, R s s' → s.getStringToSend = s'.getStringToSend) {s s' : State}
    (hs : R s s') : Comp.Sim SameSight R (setVariable n s) (setVariable n s') := by
  intro e e' h
  rw [setVariable, setVariable, ← h.isSome_lookup n]
  split
  · exact ⟨hs, h⟩
  · exact ⟨hbind hs, h.bound (hwire (hbind hs))⟩

theorem getLastFrame_alike : Comp.Sim SameSight SameState getLastFrame getLastFrame := by
  intro e e' h
  rw [getLastFrame, getLastFrame]
  obtain ⟨hf, hf'⟩ | ⟨f, f', hf, hf', hframe⟩ := rel_cases h.frame
  · rw [hf, hf']
    rfl
  · rw [hf, hf']
    exact ⟨hframe, h⟩

end Steps

/-! ## Commands -/

/-- The views a command asks its arguments for. -/
def Command.reads : Command → Nat → Views
  | .variableCommand, 1 => { string := true }
  | .variableCommand, 2 => { integer := true }
  | .variableCommand, 3 => { integer := true }
  | .memorizeCommand, 1 => { string := true }
  | .additionCommand, _ => { integer := true }
  | .repeatCommand, 1 => { string := true }
  | .repeatCommand, 2 => { integer := true }
  | .ceilDivideCommand, 1 => { integer := true }
  | .ceilDivideCommand, 2 => { integer := true }
  | .lengthCommand, 2 => { integer := true }
  | .uPauseCommand, 1 => { integer := true }
  | _, _ => {}

/-- The number that is read off a name. -/
def nameValue (name : Bytes) : Int := atoi (if name.head? = some 37 then name.drop 2 else name)

/-- The names have the same views. -/
structure SameName (v : Views) (name name' : Bytes) : Prop where
  string : v.string = true → name = name'
  integer : v.integer = true → nameValue name = nameValue name'

/-- The commands whose state has the name of the node as its text. -/
def Command.showsName : Command → Bool
  | .maskCheckCommand => true
  | .valueCheckCommand => true
  | _ => false

section Commands

variable {P : Platform} {id id' : Nat} {name name' : Bytes} {vs : Nat → Views}
  {result result' : List State} {v : Views}

theorem alike_push {s s' : State} (h : SameState s s') (hs : SameSons result result') :
    Alike v (s.push result) (s'.push result') :=
  (h.push hs).alike

/-- An `OkState` with the name of its node. -/
theorem alike_named (hname : SameName v name name') (hs : SameSons result result') :
    Alike v (((State.okState id).update (StateData.setStringValue name)).push result)
      (((State.okState id').update (StateData.setStringValue name')).push result') :=
  .of_sons (.inl rfl) (.inl rfl) (.append .nil hs) rfl rfl rfl hname.string hname.integer

/-- The same bytes in a `ValueHexState`, whatever it was before. -/
theorem sameState_raw {s s' : State} {u8p : Bytes} {i : Nat} (hcls : s.data.cls = s'.data.cls)
    (hmark : s.data.stateValue = s'.data.stateValue) (hbound : s.data.boundAs = s'.data.boundAs)
    (hsons : SameSons s.sons s'.sons) :
    SameState (s.update (StateData.setRawValue P.uninit u8p i))
      (s'.update (StateData.setRawValue P.uninit u8p i)) where
  data := by
    rw [State.data_update, State.data_update]
    exact ⟨hcls, rfl, rfl, rfl, hmark, hbound⟩
  sons := by
    rw [State.sons_update, State.sons_update]
    exact hsons

theorem runVariable_alike (h : AlikeAll Command.variableCommand.reads result result') :
    Comp.Sim SameSight (Alike v) (runVariable P id result) (runVariable P id' result') := by
  refine (argument_alike h 1).bind fun t t' ht => ?_
  rw [ht.string rfl]
  refine (checkVariable_alike _).bind_eq fun b => ?_
  cases b with
  | true =>
      refine (getVariable_alike _).bind fun s s' hs => ?_
      simp only [hs]
      refine .pure ?_
      exact alike_push (sameState_raw rfl rfl rfl .nil) h.sameSons
  | false =>
      refine getLastFrame_alike.bind fun f f' hf => ?_
      refine (integerArgument_alike h rfl).bind_eq fun start => ?_
      refine (integerArgument_alike h rfl).bind_eq fun lenght => ?_
      rw [hf.data.raw]
      cases f'.data.rawValue with
      | none => exact .fault _
      | some data =>
          simp only
          split
          · have hcaptured : SameState
                ((State.valueHexState id).update
                  (StateData.setRawValue P.uninit (data.drop start.toNat) lenght.toNat))
                ((State.valueHexState id').update
                  (StateData.setRawValue P.uninit (data.drop start.toNat) lenght.toNat)) :=
              sameState_raw rfl rfl rfl .nil
            refine (setVariable_alike (fun hs => hs.bind _) (fun hs => (hs.alike (v := v)).wire)
              hcaptured).bind fun s s' hs => ?_
            exact .pure ((hs.push h.sameSons).alike)
          · exact .fault _

theorem runMemorize_alike (h : AlikeAll Command.memorizeCommand.reads result result') :
    Comp.Sim SameSight (Alike v) (runMemorize P id result) (runMemorize P id' result') := by
  refine (argument_alike h 1).bind fun t t' ht => ?_
  rw [ht.string rfl]
  refine (checkVariable_alike _).bind_eq fun b => ?_
  cases b with
  | true =>
      refine (getVariable_alike _).bind fun s s' hs => ?_
      simp only [hs]
      refine .pure ?_
      exact alike_push (sameState_raw rfl rfl rfl .nil) h.sameSons
  | false =>
      refine (argument_alike h 2).bind fun s s' hs => ?_
      refine (setVariable_alike (fun hs => hs.bind _) Alike.wire hs).bind fun s s' hs => ?_
      simp only [hs.wire]
      refine .pure ?_
      exact alike_push (sameState_raw rfl rfl rfl .nil) (h.set hs).sameSons

theorem sumIntegers_alike {acc : Int} (h : AlikeAll vs result result')
    (hvs : ∀ k, (vs k).integer = true) : sumIntegers acc result = sumIntegers acc result' := by
  induction h generalizing acc with
  | nil => rfl
  | cons h _ ih =>
      rw [sumIntegers, sumIntegers, h.integer (hvs 0)]
      split
      · rfl
      · split
        · exact ih fun k => hvs (k + 1)
        · rfl

theorem runAddition_alike (h : AlikeAll Command.additionCommand.reads result result') :
    Comp.Sim SameSight (Alike v) (runAddition id result) (runAddition id' result') := by
  rw [runAddition, runAddition, sumIntegers_alike h fun _ => rfl]
  refine (ofExcept_alike _).bind_eq fun sum => .pure ?_
  exact SameState.alike ⟨⟨rfl, rfl, rfl, rfl, rfl, rfl⟩, .nil⟩

theorem runCeilDivide_alike (h : AlikeAll Command.ceilDivideCommand.reads result result') :
    Comp.Sim SameSight (Alike v) (runCeilDivide id result) (runCeilDivide id' result') := by
  refine (integerArgument_alike h rfl).bind_eq fun n => ?_
  refine (integerArgument_alike h rfl).bind_eq fun d => ?_
  refine (ofExcept_alike _).bind_eq fun res => .pure ?_
  exact SameState.alike ⟨⟨rfl, rfl, rfl, rfl, rfl, rfl⟩, .nil⟩

theorem runRepeat_alike (h : AlikeAll Command.repeatCommand.reads result result') :
    Comp.Sim SameSight (Alike v) (runRepeat id result) (runRepeat id' result') := by
  refine (argument_alike h 1).bind fun t t' ht => ?_
  rw [ht.string rfl]
  refine (integerArgument_alike h rfl).bind_eq fun times => .pure ?_
  exact SameState.alike ⟨⟨rfl, rfl, rfl, rfl, rfl, rfl⟩, .nil⟩

theorem runLength_alike (h : AlikeAll Command.lengthCommand.reads result result') :
    Comp.Sim SameSight (Alike v) (runLength P id result) (runLength P id' result') := by
  unfold runLength
  rw [h.length_eq]
  simp only
  split
  · refine (integerArgument_alike h rfl).bind_eq fun size => ?_
    refine (wireArgument_alike h 1).bind_eq fun wire => ?_
    split
    · exact .fault _
    · split
      · exact .fault _
      · refine .pure ?_
        exact alike_push (sameState_raw rfl rfl rfl .nil) h.sameSons
  · refine .pure ?_
    exact alike_push ⟨⟨rfl, rfl, rfl, rfl, rfl, rfl⟩, .nil⟩ h.sameSons

theorem runStringLength_alike (h : AlikeAll vs result result') :
    Comp.Sim SameSight (Alike v) (runStringLength id result) (runStringLength id' result') := by
  unfold runStringLength
  rw [h.length_eq]
  simp only
  split
  · refine (wireArgument_alike h 1).bind_eq fun wire => .pure ?_
    exact alike_push ⟨⟨rfl, rfl, rfl, rfl, rfl, rfl⟩, .nil⟩ h.sameSons
  · refine .pure ?_
    exact alike_push ⟨⟨rfl, rfl, rfl, rfl, rfl, rfl⟩, .nil⟩ h.sameSons

theorem runUPause_alike (h : AlikeAll Command.uPauseCommand.reads result result') :
    Comp.Sim SameSight (Alike v) (runUPause id result) (runUPause id' result') := by
  unfold runUPause
  rw [h.length_eq]
  split
  · refine (integerArgument_alike h rfl).bind_eq fun usec => .pure ?_
    exact alike_push ⟨⟨rfl, rfl, rfl, rfl, rfl, rfl⟩, .nil⟩ h.sameSons
  · refine .pure ?_
    exact alike_push ⟨⟨rfl, rfl, rfl, rfl, rfl, rfl⟩, .nil⟩ h.sameSons

theorem runMaskCheck_alike (h : AlikeAll vs result result') (hname : SameName v name name') :
    Comp.Sim SameSight (Alike v) (runMaskCheck id name result)
      (runMaskCheck id' name' result') := by
  refine getLastFrame_alike.bind fun f f' hf => ?_
  have htail : result.tail.map State.getStringToSend = result'.tail.map State.getStringToSend := by
    rw [List.map_tail, List.map_tail, h.map_wire]
  simp only [(hf.alike (v := {})).wire, htail]
  have hend : ∀ equal : Bool, Comp.Sim SameSight (Alike v)
      (if equal = true then
        (pure (((State.okState id).update (StateData.setStringValue name)).push result) :
          EnvComp State)
        else pure (((State.failState id).update (StateData.setStringValue
          (ascii "MaskCheck Fail"))).setFailValue.push result))
      (if equal = true then
        (pure (((State.okState id').update (StateData.setStringValue name')).push result') :
          EnvComp State)
        else pure (((State.failState id').update (StateData.setStringValue
          (ascii "MaskCheck Fail"))).setFailValue.push result')) := by
    intro equal
    split
    · exact .pure (alike_named hname h.sameSons)
    · refine .pure ?_
      exact alike_push ⟨⟨rfl, rfl, rfl, rfl, rfl, rfl⟩, .nil⟩ h.sameSons
  split
  · refine (wireArgument_alike h 1).bind_eq fun mask => ?_
    refine (wireArgument_alike h 2).bind_eq fun value => ?_
    rw [pure_bind, pure_bind]
    exact hend _
  · rw [pure_bind, pure_bind]
    exact hend _

theorem runValueCheck_alike (h : AlikeAll vs result result') (hname : SameName v name name') :
    Comp.Sim SameSight (Alike v) (runValueCheck P id name result)
      (runValueCheck P id' name' result') := by
  refine getLastFrame_alike.bind fun f f' hf => ?_
  simp only [(hf.alike (v := {})).wire]
  refine (wireArgument_alike h 1).bind_eq fun start => ?_
  refine (wireArgument_alike h 2).bind_eq fun size => ?_
  refine (wireArgument_alike h 3).bind_eq fun expected => ?_
  refine (ofExcept_alike _).bind_eq fun disequal => ?_
  split
  · exact .pure (alike_named hname h.sameSons)
  · refine .pure ?_
    exact alike_push ⟨⟨rfl, rfl, rfl, rfl, rfl, rfl⟩, .nil⟩ (h.sameSons.append ⟨rfl, rfl⟩)

theorem runMd5_alike (h : AlikeAll vs result result') :
    Comp.Sim SameSight (Alike v) (runMd5 P id result) (runMd5 P id' result') := by
  unfold runMd5
  rw [h.sameSons.wire]
  refine .pure (SameState.alike (sameState_raw rfl rfl rfl ?_))
  exact SameSons.append .nil h.sameSons

theorem runBase64Encode_alike (h : AlikeAll vs result result') :
    Comp.Sim SameSight (Alike v) (runBase64Encode id result) (runBase64Encode id' result') := by
  unfold runBase64Encode
  rw [h.sameSons.wire]
  exact .pure (SameState.alike ⟨⟨rfl, rfl, rfl, rfl, rfl, rfl⟩, .append .nil h.sameSons⟩)

theorem runBase64Decode_alike (h : AlikeAll vs result result') :
    Comp.Sim SameSight (Alike v) (runBase64Decode P id result)
      (runBase64Decode P id' result') := by
  unfold runBase64Decode
  rw [h.sameSons.wire]
  refine .pure (SameState.alike (sameState_raw rfl rfl rfl ?_))
  exact SameSons.append .nil h.sameSons

/-- A command does the same with results that are the same to it. -/
theorem finish_alike {c : Command} (h : AlikeAll c.reads result result')
    (hname : c.showsName = true → SameName v name name') :
    Comp.Sim SameSight (Alike v) (c.finish P id name result) (c.finish P id' name' result') := by
  cases c with
  | variableCommand => exact runVariable_alike h
  | additionCommand => exact runAddition_alike h
  | base64DecodeCommand => exact runBase64Decode_alike h
  | base64EncodeCommand => exact runBase64Encode_alike h
  | md5Command => exact runMd5_alike h
  | maskCheckCommand => exact runMaskCheck_alike h (hname rfl)
  | valueCheckCommand => exact runValueCheck_alike h (hname rfl)
  | uPauseCommand => exact runUPause_alike h
  | lengthCommand => exact runLength_alike h
  | stringLengthCommand => exact runStringLength_alike h
  | memorizeCommand => exact runMemorize_alike h
  | repeatCommand => exact runRepeat_alike h
  | ceilDivideCommand => exact runCeilDivide_alike h

end Commands

/-! ## Actions -/

section Actions

variable {P : Platform} {id id' : Nat} {name name' : Bytes} {vs : Nat → Views} {v : Views}
  {all all' brk brk' : EnvComp (List State)}

theorem returnAction_alike (hbrk : Comp.Sim SameSight (AlikeAll vs) brk brk')
    (hname : SameName v name name') :
    Comp.Sim SameSight (Alike v) (returnAction id name brk) (returnAction id' name' brk') := by
  refine hbrk.bind fun result result' h => ?_
  have hlast := h.getElem? (result.length - 1)
  rw [← List.getLast?_eq_getElem?, h.length_eq, ← List.getLast?_eq_getElem?] at hlast
  obtain ⟨hl, hl'⟩ | ⟨last, last', hl, hl', hlast⟩ := rel_cases hlast
  · rw [hl, hl']
    exact .fault _
  · rw [hl, hl']
    simp only [hlast.fail]
    refine .pure ?_
    cases last'.isFailValue with
    | true =>
        exact .of_sons (.inr rfl) (.inr rfl) (.append .nil h.sameSons) rfl rfl rfl
          hname.string hname.integer
    | false =>
        exact .of_sons (.inl rfl) (.inl rfl) (.append .nil h.sameSons) rfl rfl rfl
          hname.string hname.integer

theorem runTimes_alike {m m' : EnvComp State} (hm : Comp.Sim SameSight (Alike {}) m m') (n : Nat) :
    Comp.Sim SameSight (AlikeAll fun _ => {}) (runTimes m n) (runTimes m' n) := by
  induction n with
  | zero => exact .pure (.nil _)
  | succ n ih => exact hm.bind fun _ _ hs => ih.bind fun _ _ hss => .pure (.cons hs hss)

theorem repeatAction_alike (hbrk : Comp.Sim SameSight (AlikeAll vs) brk brk') :
    Comp.Sim SameSight (Alike v) (repeatAction id name brk) (repeatAction id' name brk') := by
  have hcopy : Comp.Sim SameSight (Alike {}) (returnAction id name brk)
      (returnAction id' name brk') := returnAction_alike hbrk ⟨nofun, nofun⟩
  refine (runTimes_alike hcopy _).bind fun results results' h => .pure ?_
  exact alike_named ⟨fun _ => rfl, fun _ => rfl⟩ h.sameSons

/-- The same bytes are sent. -/
theorem socketSend_alike (data : Bytes) :
    Comp.Sim SameSight Eq (socketSend data) (socketSend data) := by
  intro e e' h
  have hsends := h.sends
  have htrace := h.trace
  unfold socketSend
  simp only [hsends, htrace]
  exact ⟨rfl, h.view, h.frame, h.reads, rfl, rfl⟩

theorem sendAction_alike (hall : Comp.Sim SameSight (AlikeAll vs) all all') :
    Comp.Sim SameSight (Alike v) (sendAction id all) (sendAction id' all') := by
  refine hall.bind fun result result' h => ?_
  have hdata : dataToSend result = dataToSend result' := by
    rw [dataToSend, dataToSend, List.flatMap_def, List.flatMap_def, List.map_tail,
      List.map_tail, h.map_wire]
  simp only [hdata, liftEnv_env]
  split
  · exact .fault _
  · refine (socketSend_alike _).bind_eq fun n => .pure (SameState.alike ?_)
    rw [sentState, sentState, State.setPacketValue]
    refine ⟨?_, ?_⟩
    · rw [State.setStateValue_data, State.setStateValue_data, State.data_push, State.data_push]
      split <;> exact ⟨rfl, rfl, rfl, rfl, rfl, rfl⟩
    · rw [State.setStateValue_sons, State.setStateValue_sons, State.sons_push, State.sons_push]
      refine .append ?_ h.sameSons
      split <;> exact .nil

/-! ## Reads -/

theorem socketRead_alike : Comp.Sim SameSight Eq socketRead socketRead := by
  intro e e' h
  have hreads := h.reads
  have htrace := h.trace
  unfold socketRead
  simp only [hreads, htrace]
  exact ⟨rfl, h.view, h.frame, rfl, h.sends, rfl⟩

theorem receive_alike (o : ReadOutcome) :
    Comp.Sim SameSight SameState (receive P id o) (receive P id' o) := by
  unfold receive
  split
  · split
    · exact .pure ⟨⟨rfl, rfl, rfl, rfl, rfl, rfl⟩, .nil⟩
    · exact .fault _
  · exact .pure ⟨⟨rfl, rfl, rfl, rfl, rfl, rfl⟩, .nil⟩

theorem replaceLastFrame_alike {f f' : State} (hf : SameState f f') :
    Comp.Sim SameSight Eq (replaceLastFrame f) (replaceLastFrame f') := by
  intro e e' h
  unfold replaceLastFrame
  obtain ⟨hl, hl'⟩ | ⟨last, last', hl, hl', hlast⟩ := rel_cases h.frame
  · simp only [hl, hl']
    exact ⟨rfl, h.view, .some hf, h.reads, h.sends, h.trace⟩
  · have hdel := h.delete (hlast.alike (v := {})).wires
    simp only [hl, hl']
    exact ⟨rfl, hdel.view, .some hf, h.reads, h.sends, h.trace⟩

theorem pushLastFrame_alike {result result' : List State} (hs : SameSons result result') :
    Comp.Sim SameSight SameState (pushLastFrame result) (pushLastFrame result') := by
  intro e e' h
  unfold pushLastFrame
  obtain ⟨hl, hl'⟩ | ⟨last, last', hl, hl', hlast⟩ := rel_cases h.frame
  · simp only [hl, hl']
    rfl
  · simp only [hl, hl']
    exact ⟨hlast.push hs, h.view, .some (hlast.push hs), h.reads, h.sends, h.trace⟩

theorem clearLastFrame_alike : Comp.Sim SameSight Eq clearLastFrame clearLastFrame :=
  fun _ _ h => ⟨rfl, h.view, .none, h.reads, h.sends, h.trace⟩

theorem readLoop_alike (hall : Comp.Sim SameSight (AlikeAll vs) all all') (fuel : Nat) :
    Comp.Sim SameSight SameState (readLoop P id all fuel) (readLoop P id' all' fuel) := by
  induction fuel with
  | zero => exact .fault _
  | succ fuel ih =>
      rw [readLoop, readLoop]
      simp only [liftEnv_env]
      refine socketRead_alike.bind_eq fun o => ?_
      refine (receive_alike o).bind fun f f' hf => ?_
      refine (replaceLastFrame_alike hf).bind_eq fun _ => ?_
      refine hall.bind fun result result' h => ?_
      refine (pushLastFrame_alike h.sameSons).bind fun res res' hres => ?_
      rw [h.thereIsAFail_eq]
      split
      · exact ih
      · exact .pure hres

theorem readFuel_alike : Comp.Sim SameSight Eq readFuel readFuel :=
  fun _ _ h => ⟨congrArg (fun reads => List.length reads + 1) h.reads, h⟩

theorem readAction_alike (hall : Comp.Sim SameSight (AlikeAll vs) all all') :
    Comp.Sim SameSight (Alike v) (readAction P id all) (readAction P id' all') := by
  unfold readAction
  simp only [liftEnv_env]
  refine readFuel_alike.bind_eq fun fuel => ?_
  refine (readLoop_alike hall fuel).bind fun res res' h => ?_
  refine clearLastFrame_alike.bind_eq fun _ => .pure (SameState.alike ?_)
  rw [(h.alike (v := v)).fail]
  split
  · exact h
  · refine ⟨?_, ?_⟩
    · rw [State.setPacketValue, State.setStateValue_data,
        State.setStateValue_data]
      exact ⟨h.data.cls, h.data.raw, h.data.string, h.data.integer, rfl, h.data.bound⟩
    · rw [State.setPacketValue, State.setStateValue_sons,
        State.setStateValue_sons]
      exact h.sons

/-! ## Injectors and commands -/

theorem selectResult_alike {result result' : List State} {value : Nat}
    (h : AlikeAll (fun _ => v) result result') :
    Comp.Sim SameSight (Alike v) (selectResult value result) (selectResult value result') := by
  intro e e' he
  unfold selectResult
  obtain ⟨hs, hs'⟩ | ⟨s, s', hs, hs', hvalue⟩ := rel_cases (h.getElem? value)
  · simp only [hs, hs']
    rfl
  · have hselect := hvalue.select ("Anomaly-" ++ toString value)
    simp only [hs, hs']
    exact ⟨hselect, (he.foldl_delete (h.flatMap_wires_eraseIdx value)).refresh hselect.wires⟩

theorem injectAction_alike (hall : Comp.Sim SameSight (AlikeAll fun _ => v) all all')
    (value : Nat) :
    Comp.Sim SameSight (Alike v) (injectAction (fun _ => pure value) all)
      (injectAction (fun _ => pure value) all') := by
  unfold injectAction
  simp only [liftEnv_env, pure_bind]
  exact hall.bind fun result result' h => selectResult_alike h

theorem commandActionOn_alike {c : Command} (hall : Comp.Sim SameSight (AlikeAll c.reads) all all')
    (hname : c.showsName = true → SameName v name name') (numSons : Nat) :
    Comp.Sim SameSight (Alike v) (commandActionOn P id name numSons c all)
      (commandActionOn P id' name' numSons c all') := by
  unfold commandActionOn
  simp only [liftEnv_env]
  have husage : Comp.Sim SameSight Eq (c.usage numSons) (c.usage numSons) := by
    unfold Command.usage
    split
    · split
      · exact .pure rfl
      · exact .fault _
    · exact .pure rfl
  exact husage.bind_eq fun _ => hall.bind fun result result' h => finish_alike h hname

end Actions

/-! ## Trees -/

/-- The views an action asks the results of its sons for. -/
def Action.reads : Action → Nat → Views
  | .command c => c.reads
  | _ => fun _ => {}

/-- The actions of a `Composite` whose state has the name of the node as its text. -/
def Action.showsName : Action → Bool
  | .returnAction => true
  | .command c => c.showsName
  | _ => false

namespace Composite

/-- The command a node is. -/
def commandName : Composite → Option Bytes
  | .leaf .commandComposite _ name => some name
  | _ => none

/-- The alternatives a selection takes, in the order of the tree. -/
def choices (sel : Nat → Nat) (c : Composite) : List Nat := c.orNodes.map fun d => sel d.id

theorem choices_or (sel : Nat → Nat) (id : Nat) (name : Bytes) (sons : List Composite) :
    choices sel (.node .orComposite id name sons) = sel id :: sons.flatMap (choices sel) := by
  rw [choices, orNodes, nodes, List.filter_cons_of_pos rfl, List.map_cons, nodesOf_eq,
    List.filter_flatMap, List.map_flatMap]
  rfl

theorem choices_of_ne (sel : Nat → Nat) {kind : NodeKind} (h : kind ≠ .orComposite) (id : Nat)
    (name : Bytes) (sons : List Composite) :
    choices sel (.node kind id name sons) = sons.flatMap (choices sel) := by
  have hor : (node kind id name sons).isOr = false := by
    cases kind with
    | composite => rfl
    | orComposite => exact absurd rfl h
    | repeatComposite => rfl
  rw [choices, orNodes, nodes, List.filter_cons_of_neg (by rw [hor]; exact Bool.false_ne_true),
    nodesOf_eq, List.filter_flatMap, List.map_flatMap]
  rfl

end Composite

theorem alike_leaf (v : Views) (kind : LeafKind) (i i' : Nat) (text : Bytes) :
    Alike v (leafState kind i text) (leafState kind i' text) := by
  cases kind <;> exact SameState.alike ⟨⟨rfl, rfl, rfl, rfl, rfl, rfl⟩, .nil⟩

theorem isFailValue_leafState (kind : LeafKind) (i : Nat) (text : Bytes) :
    (leafState kind i text).isFailValue = false := by
  cases kind <;> rfl

/-- A node of this name around the leaf has the views of the leaf. -/
structure ShowsName (v : Views) (kind : LeafKind) (text name : Bytes) : Prop where
  string : v.string = true → (leafState kind 0 text).getStringValue = name
  integer : v.integer = true → (leafState kind 0 text).getIntegerValue = .ok (nameValue name)

/-- One tree can stand in the place of another where the views `v` count. -/
inductive StandsFor : Views → Composite → Composite → Prop where
  | leaf {v : Views} (kind : LeafKind) (id id' : Nat) (name : Bytes) :
      StandsFor v (.leaf kind id name) (.leaf kind id' name)
  | composite {v : Views} {id id' : Nat} {name name' : Bytes} {sons sons' : List Composite}
      (hname : (factoryAction sons).showsName = true → SameName v name name')
      (hlen : sons.length = sons'.length)
      (hsons : ∀ (k : Nat) c c', sons[k]? = some c → sons'[k]? = some c' →
        StandsFor ((factoryAction sons).reads k) c c') :
      StandsFor v (.node .composite id name sons) (.node .composite id' name' sons')
  | orComposite {v : Views} {id id' : Nat} {name name' : Bytes} {sons sons' : List Composite}
      (hlen : sons.length = sons'.length)
      (hsons : ∀ (k : Nat) c c', sons[k]? = some c → sons'[k]? = some c' → StandsFor v c c') :
      StandsFor v (.node .orComposite id name sons) (.node .orComposite id' name' sons')
  | repeatComposite {v : Views} {id id' : Nat} {name : Bytes} {sons sons' : List Composite}
      (hlen : sons.length = sons'.length)
      (hsons : ∀ (k : Nat) c c', sons[k]? = some c → sons'[k]? = some c' → StandsFor {} c c') :
      StandsFor v (.node .repeatComposite id name sons) (.node .repeatComposite id' name sons')
  | inside {v : Views} {kind : LeafKind} {name text : Bytes} (id i i' : Nat)
      (hkind : kind ≠ .commandComposite) (hviews : ShowsName v kind text name) :
      StandsFor v (.node .composite id name [.leaf kind i text]) (.leaf kind i' text)
  | wrapped {i id id' : Nat} {n name name' : Bytes} {sons sons' : List Composite}
      (hlen : sons.length = sons'.length)
      (hsons : ∀ (k : Nat) c c', sons[k]? = some c → sons'[k]? = some c' → StandsFor {} c c') :
      StandsFor {} (.node .orComposite id name sons)
        (.node .composite i n [.node .orComposite id' name' sons'])

namespace StandsFor

variable {P : Platform} {sel sel' : Nat → Nat} {v : Views} {c c' : Composite}
  {sons sons' : List Composite}

theorem commandName_leaf {kind : LeafKind} (hkind : kind ≠ .commandComposite) (i : Nat)
    (text : Bytes) : (Composite.leaf kind i text).commandName = none := by
  cases kind with
  | commandComposite => exact absurd rfl hkind
  | stringLeaf => rfl
  | hexLeaf => rfl
  | decLeaf => rfl
  | binLeaf => rfl

theorem commandName_eq (h : StandsFor v c c') : c.commandName = c'.commandName := by
  induction h with
  | leaf kind id id' name => cases kind <;> rfl
  | composite => rfl
  | orComposite => rfl
  | repeatComposite => rfl
  | @inside v kind name text id i i' hkind => exact (commandName_leaf hkind i' text).symm
  | wrapped => rfl

/-- The strategy of a node depends on the command of its first son. -/
theorem factoryAction_eq (hlen : sons.length = sons'.length)
    (h : ∀ c c', sons[0]? = some c → sons'[0]? = some c' → c.commandName = c'.commandName) :
    factoryAction sons = factoryAction sons' := by
  have hhead : ∀ {cs : List Composite}, factoryAction cs =
      (cs.head?.bind Composite.commandName).elim .returnAction commandAction := by
    intro cs
    unfold factoryAction
    split
    · rfl
    · next hnot =>
        cases cs with
        | nil => rfl
        | cons c cs =>
            cases c with
            | node => rfl
            | leaf kind id name =>
                cases kind with
                | commandComposite => exact absurd rfl (hnot id name cs)
                | stringLeaf => rfl
                | hexLeaf => rfl
                | decLeaf => rfl
                | binLeaf => rfl
  rw [hhead, hhead]
  cases sons with
  | nil =>
      cases sons' with
      | nil => rfl
      | cons c' sons' => cases hlen
  | cons c sons =>
      cases sons' with
      | nil => cases hlen
      | cons c' sons' =>
          have hc := h c c' rfl rfl
          simp only [List.head?_cons, Option.bind_some, hc]

/-- The two trees have the same number of alternations. -/
theorem length_choices (h : StandsFor v c c') :
    (c.choices sel).length = (c'.choices sel').length := by
  have hall : ∀ {cs cs' : List Composite}, cs.length = cs'.length →
      (∀ (k : Nat) c c', cs[k]? = some c → cs'[k]? = some c' →
        (c.choices sel).length = (c'.choices sel').length) →
      (cs.flatMap (Composite.choices sel)).length =
        (cs'.flatMap (Composite.choices sel')).length := by
    intro cs cs' hlen hk
    induction cs generalizing cs' with
    | nil =>
        cases cs' with
        | nil => rfl
        | cons => cases hlen
    | cons d cs ih =>
        cases cs' with
        | nil => cases hlen
        | cons d' cs' =>
            rw [List.flatMap_cons, List.flatMap_cons, List.length_append, List.length_append,
              hk 0 d d' rfl rfl, ih (Nat.succ.inj hlen) fun k => hk (k + 1)]
  have hcomposite : NodeKind.composite ≠ .orComposite := by simp
  have hrepeat : NodeKind.repeatComposite ≠ .orComposite := by simp
  induction h with
  | leaf kind id id' name => rfl
  | composite _ hlen _ ih =>
      rw [Composite.choices_of_ne _ hcomposite, Composite.choices_of_ne _ hcomposite,
        hall hlen ih]
  | orComposite hlen _ ih =>
      rw [Composite.choices_or, Composite.choices_or, List.length_cons, List.length_cons,
        hall hlen ih]
  | repeatComposite hlen _ ih =>
      rw [Composite.choices_of_ne _ hrepeat, Composite.choices_of_ne _ hrepeat, hall hlen ih]
  | inside => rw [Composite.choices_of_ne _ hcomposite, List.flatMap_singleton]; rfl
  | wrapped hlen _ ih =>
      rw [Composite.choices_of_ne _ hcomposite, List.flatMap_singleton, Composite.choices_or,
        Composite.choices_or, List.length_cons, List.length_cons, hall hlen ih]

/-- Equal choices in the whole are equal choices in the parts. -/
theorem choices_sons (hlen : sons.length = sons'.length) {vs : Nat → Views}
    (h : ∀ (k : Nat) c c', sons[k]? = some c → sons'[k]? = some c' → StandsFor (vs k) c c')
    (hsel : sons.flatMap (Composite.choices sel) = sons'.flatMap (Composite.choices sel')) :
    ∀ (k : Nat) c c', sons[k]? = some c → sons'[k]? = some c' →
      c.choices sel = c'.choices sel' := by
  induction sons generalizing sons' vs with
  | nil => exact fun k c c' hc => by cases hc
  | cons d sons ih =>
      cases sons' with
      | nil => cases hlen
      | cons d' sons' =>
          rw [List.flatMap_cons, List.flatMap_cons] at hsel
          obtain ⟨hhead, htail⟩ := List.append_inj hsel (h 0 d d' rfl rfl).length_choices
          intro k
          cases k with
          | zero =>
              intro c c' hc hc'
              cases hc
              cases hc'
              exact hhead
          | succ k => exact ih (Nat.succ.inj hlen) (fun k => h (k + 1)) htail k

/-! ## Runs -/

theorem evalSons_alike {vs : Nat → Views} (hlen : sons.length = sons'.length)
    (h : ∀ (k : Nat) c c', sons[k]? = some c → sons'[k]? = some c' →
      Comp.Sim SameSight (Alike (vs k)) (eval P sel c) (eval P sel' c')) :
    Comp.Sim SameSight (AlikeAll vs) (evalSons P sel sons) (evalSons P sel' sons') := by
  induction sons generalizing sons' vs with
  | nil =>
      cases sons' with
      | nil => exact .pure (.nil vs)
      | cons => cases hlen
  | cons c sons ih =>
      cases sons' with
      | nil => cases hlen
      | cons c' sons' =>
          rw [evalSons, evalSons]
          refine (h 0 c c' rfl rfl).bind fun s s' hs => ?_
          refine (ih (Nat.succ.inj hlen) fun k => h (k + 1)).bind fun ss ss' hss => ?_
          exact .pure (.cons hs hss)

theorem evalSonsReturn_alike {vs : Nat → Views} (hlen : sons.length = sons'.length)
    (h : ∀ (k : Nat) c c', sons[k]? = some c → sons'[k]? = some c' →
      Comp.Sim SameSight (Alike (vs k)) (eval P sel c) (eval P sel' c')) :
    Comp.Sim SameSight (AlikeAll vs) (evalSonsReturn P sel sons)
      (evalSonsReturn P sel' sons') := by
  induction sons generalizing sons' vs with
  | nil =>
      cases sons' with
      | nil => exact .pure (.nil vs)
      | cons => cases hlen
  | cons c sons ih =>
      cases sons' with
      | nil => cases hlen
      | cons c' sons' =>
          rw [evalSonsReturn, evalSonsReturn]
          refine (h 0 c c' rfl rfl).bind fun s s' hs => ?_
          rw [hs.fail]
          split
          · exact .pure (.cons hs (.nil _))
          · refine (ih (Nat.succ.inj hlen) fun k => h (k + 1)).bind fun ss ss' hss => ?_
            exact .pure (.cons hs hss)

/-- The run of a node around a single one. -/
theorem eval_single {c : Composite} (hc : c.commandName = none) (id : Nat) (name : Bytes) :
    eval P sel (.node .composite id name [c]) = eval P sel c >>= fun s =>
      pure (((if s.isFailValue then State.failState id else State.okState id).update
        (StateData.setStringValue name)).push [s]) := by
  have ha : factoryAction [c] = .returnAction := by
    have hnone : factoryAction [c] = factoryAction [.leaf .stringLeaf 0 []] := by
      refine factoryAction_eq rfl fun d d' hd hd' => ?_
      cases hd
      cases hd'
      exact hc
    exact hnone
  rw [eval, strategyOf, ha, runAction, returnAction, evalSonsReturn, evalSonsReturn, bind_assoc]
  refine congrArg (eval P sel c >>= ·) (funext fun s => ?_)
  cases hs : s.isFailValue <;> simp [hs]

/-- The run of a node around a leaf. -/
theorem eval_around {kind : LeafKind} (hkind : kind ≠ .commandComposite) (id i : Nat)
    (name text : Bytes) :
    eval P sel (.node .composite id name [.leaf kind i text]) =
      pure (((State.okState id).update (StateData.setStringValue name)).push
        [leafState kind i text]) := by
  have hok := isFailValue_leafState kind i text
  rw [eval_single (commandName_leaf hkind i text), eval, pure_bind, hok]
  rfl

/-- A node around a single one sends what that sends. -/
theorem alike_single {s s' : State} (h : Alike {} s s') (id : Nat) (name : Bytes) :
    Alike {} s (((if s'.isFailValue then State.failState id else State.okState id).update
      (StateData.setStringValue name)).push [s']) := by
  refine ⟨?_, ?_, ?_, nofun, nofun⟩
  · rw [h.wire]
    cases s'.isFailValue <;> exact (List.append_nil s'.getStringToSend).symm
  · rw [h.fail]
    cases s'.isFailValue <;> rfl
  · rw [h.wires, wires_push (by split <;> rfl) (by split <;> rfl), List.flatMap_singleton]

/-- A node around a leaf sends what the leaf sends. -/
theorem alike_around {kind : LeafKind} {name text : Bytes} (h : ShowsName v kind text name)
    (id i i' : Nat) :
    Alike v (((State.okState id).update (StateData.setStringValue name)).push
      [leafState kind i text]) (leafState kind i' text) := by
  have hleaf : ∀ w : Views, Alike w (leafState kind i text) (leafState kind i' text) :=
    fun w => alike_leaf w kind i i' text
  have hzero : Alike { string := true, integer := true } (leafState kind 0 text)
      (leafState kind i' text) := alike_leaf _ kind 0 i' text
  refine ⟨?_, (isFailValue_leafState kind i' text).symm, ?_, fun hv => ?_, fun hv => ?_⟩
  · rw [State.getStringToSend_eq, ← (hleaf v).wire]
    exact List.append_nil _
  · rw [State.wires_of_unbound rfl, ← (hleaf v).wires]
    exact List.append_nil _
  · rw [← hzero.string rfl, h.string hv]
    rfl
  · rw [← hzero.integer rfl, h.integer hv]
    rfl

/-- A tree that can stand in the place of another one makes the same calls, where the
same alternatives are taken. -/
theorem alike (h : StandsFor v c c') (hsel : c.choices sel = c'.choices sel') :
    Comp.Sim SameSight (Alike v) (eval P sel c) (eval P sel' c') := by
  have hcomposite : NodeKind.composite ≠ .orComposite := by simp
  have hrepeat : NodeKind.repeatComposite ≠ .orComposite := by simp
  induction h with
  | leaf kind id id' name =>
      rw [eval, eval]
      exact .pure (alike_leaf _ kind id id' name)
  | @composite v id id' name name' sons sons' hname hlen hsons ih =>
      rw [Composite.choices_of_ne _ hcomposite, Composite.choices_of_ne _ hcomposite] at hsel
      have hson := fun k c c' hc hc' =>
        ih k c c' hc hc' (choices_sons hlen hsons hsel k c c' hc hc')
      have ha : factoryAction sons = factoryAction sons' :=
        factoryAction_eq hlen fun c c' hc hc' => (hsons 0 c c' hc hc').commandName_eq
      rw [eval, eval, strategyOf, strategyOf, ← ha, ← hlen]
      obtain hr | ⟨socket, hr⟩ | ⟨socket, hr⟩ | ⟨cmd, hr⟩ := factoryAction_cases sons
      · rw [hr] at hname hson ⊢
        exact returnAction_alike (evalSonsReturn_alike hlen hson) (hname rfl)
      · rw [hr] at hson ⊢
        exact sendAction_alike (evalSons_alike hlen hson)
      · rw [hr] at hson ⊢
        exact readAction_alike (evalSons_alike hlen hson)
      · rw [hr] at hname hson ⊢
        exact commandActionOn_alike (evalSons_alike hlen hson) hname _
  | @orComposite v id id' name name' sons sons' hlen hsons ih =>
      rw [Composite.choices_or, Composite.choices_or, List.cons.injEq] at hsel
      have hson := fun k c c' hc hc' =>
        ih k c c' hc hc' (choices_sons hlen hsons hsel.2 k c c' hc hc')
      rw [eval, eval, strategyOf, strategyOf, runAction, runAction, hsel.1]
      exact injectAction_alike (evalSons_alike hlen hson) _
  | @repeatComposite v id id' name sons sons' hlen hsons ih =>
      rw [Composite.choices_of_ne _ hrepeat, Composite.choices_of_ne _ hrepeat] at hsel
      have hson := fun k c c' hc hc' =>
        ih k c c' hc hc' (choices_sons hlen hsons hsel k c c' hc hc')
      rw [eval, eval, strategyOf, strategyOf, runAction, runAction]
      exact repeatAction_alike (evalSonsReturn_alike hlen hson)
  | inside id i i' hkind hviews =>
      rw [eval_around hkind, eval]
      exact .pure (alike_around hviews id i i')
  | @wrapped i id id' n name name' sons sons' hlen hsons ih =>
      rw [Composite.choices_or, Composite.choices_of_ne _ hcomposite, List.flatMap_singleton,
        Composite.choices_or, List.cons.injEq] at hsel
      have hson := fun k c c' hc hc' =>
        ih k c c' hc hc' (choices_sons hlen hsons hsel.2 k c c' hc hc')
      have hor : Comp.Sim SameSight (Alike {}) (eval P sel (.node .orComposite id name sons))
          (eval P sel' (.node .orComposite id' name' sons')) := by
        rw [eval, eval, strategyOf, strategyOf, runAction, runAction, hsel.1]
        exact injectAction_alike (evalSons_alike hlen hson) _
      rw [eval_single rfl, ← bind_pure (eval P sel (.node .orComposite id name sons))]
      exact hor.bind fun s s' hs => .pure (alike_single hs i n)

end StandsFor

end Stress

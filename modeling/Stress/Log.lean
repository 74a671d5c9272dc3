import Stress.Propagation

/-!
# The log

What `XMLOutput` writes for the state of a run, and how it compares with what the
sends have put on the wire.

The text of a packet is meant to be its bytes, the printable ones escaped for XML
and the others in hexadecimal.  The log of a send is put together from the logs
of its data, while the bytes handed to the socket are put together from what the
data sends.  `Main.log_agrees_with_wire` says that the two agree in every run
where no alternation selects a send, no send has another one in its data, and the
texts in the data of a send, those that `Repeat` copies among them, are printable.
-/

namespace Stress

/-! ## What is written -/

/-- The classes derived from `ValueState`. -/
def StateClass.isValueState : StateClass → Bool
  | .ok | .fail => false
  | _ => true

/-- `getTag`. -/
def StateClass.tag : StateClass → String
  | .sendPacket => "send"
  | .readPacket => "read"
  | _ => "state"

/-- An element of the log. -/
structure Element where
  tag : String
  id : Nat
  name : String
  type : String
  data : Bytes

/-- The line of an element. -/
def Element.write (el : Element) : Bytes :=
  ascii "<" ++ ascii el.tag ++ ascii " id=\"" ++ showNat el.id ++ ascii "\" name=\"" ++
    ascii el.name ++ ascii "\" type=\"" ++ ascii el.type ++ ascii "\" data=\"" ++ el.data ++
    ascii "\" />\n"

namespace State

/-- The element of a `ValueState`. -/
def element (s : State) : Element where
  tag := s.data.cls.tag
  id := s.data.compositeId
  name := s.data.name
  type := s.data.cls.type
  data := s.getValueForLog

mutual

/-- `XMLOutput::runTreeState`. -/
def runTreeState : State → Bytes
  | .mk d ss =>
      (if d.cls.isValueState then (element (.mk d ss)).write else []) ++ runTreeStates ss

/-- The loop of `runTreeState` over the sons. -/
def runTreeStates : List State → Bytes
  | [] => []
  | s :: ss => runTreeState s ++ runTreeStates ss

end

mutual

/-- The states of a tree, from the root down and from left to right. -/
def states : State → List State
  | .mk d ss => .mk d ss :: statesOf ss

def statesOf : List State → List State
  | [] => []
  | s :: ss => states s ++ statesOf ss

end

theorem statesOf_eq (ss : List State) : statesOf ss = ss.flatMap states := by
  induction ss with
  | nil => simp [statesOf]
  | cons s ss ih => simp [statesOf, ih]

theorem states_eq (s : State) : s.states = s :: s.sons.flatMap states := by
  cases s
  rw [states, statesOf_eq]
  rfl

end State

/-! ## Rendering bytes -/

/-- The character references of `parseChar`. -/
def references : List Bytes :=
  [ascii "&lt;", ascii "&gt;", ascii "&amp;", ascii "&apos;", ascii "&quot;"]

/-- A character that can stand in an attribute as it is. -/
def isAttributeChar (c : UInt8) : Bool := isPrint c && c != 60 && c != 38 && c != 34

/-- A text without control characters in which `<`, `&` and `"` are escaped. -/
inductive Escaped : Bytes → Prop where
  | nil : Escaped []
  | char {c : UInt8} {s : Bytes} (hc : isAttributeChar c = true) (h : Escaped s) : Escaped (c :: s)
  | reference {r s : Bytes} (hr : r ∈ references) (h : Escaped s) : Escaped (r ++ s)

theorem Escaped.append {s s' : Bytes} (h : Escaped s) (h' : Escaped s') : Escaped (s ++ s') := by
  induction h with
  | nil => exact h'
  | char hc _ ih => exact .char hc ih
  | reference hr _ ih =>
      rw [List.append_assoc]
      exact .reference hr ih

theorem hexLogByte_of_isPrint {c : UInt8} (h : isPrint c = true) : hexLogByte c = parseChar c := by
  rw [isPrint, Bool.and_eq_true, decide_eq_true_eq, decide_eq_true_eq] at h
  rw [hexLogByte, if_neg]
  rw [Bool.or_eq_true, decide_eq_true_eq, decide_eq_true_eq, not_or, UInt8.not_lt, UInt8.not_lt]
  exact h

/-- A printable character that no reference or escape stands for. -/
def isPlain (c : UInt8) : Bool := isPrint c && !([60, 62, 38, 39, 34, 96].contains c)

theorem hexLogByte_of_isPlain {c : UInt8} (h : isPlain c = true) : hexLogByte c = [c] := by
  rw [isPlain, Bool.and_eq_true] at h
  rw [hexLogByte_of_isPrint h.1]
  simp at h
  simp [parseChar, h]

theorem render_plain {s : Bytes} (h : ∀ c ∈ s, isPlain c = true) : s.flatMap hexLogByte = s := by
  rw [List.flatMap_congr fun c hc => hexLogByte_of_isPlain (h c hc)]
  exact List.flatMap_singleton' s

theorem isPlain_of_isDigit {c : UInt8} (h : isDigit c = true) : isPlain c = true := by
  simp only [isDigit, isPlain, isPrint, Bool.and_eq_true, decide_eq_true_eq] at *
  simp only [UInt8.le_iff_toNat_le] at *
  simp [← UInt8.toNat_inj]
  simp at h
  omega

theorem render_showInt (i : Int) : (showInt i).flatMap hexLogByte = showInt i := by
  refine render_plain fun c hc => ?_
  cases isDigit_of_mem_showInt hc with
  | inl heq => rw [heq]; decide
  | inr hdigit => exact isPlain_of_isDigit hdigit

/-! ## States that are logged as they are sent -/

/-- A state that is logged as the rendering of what it sends. -/
structure Renders (s : State) : Prop where
  log : s.getValueForLog = s.getStringToSend.flatMap hexLogByte
  cls : s.data.cls ≠ .sendPacket
  mark : s.data.cls = .valueString → s.data.stateValue ≠ .packetValue

namespace Renders

variable {s : State}

theorem sons_eq {ss : List State} (h : ∀ r ∈ ss, Renders r) : ss.flatMap State.getValueForLog =
    (ss.flatMap State.getStringToSend).flatMap hexLogByte := by
  rw [List.flatMap_assoc]
  exact List.flatMap_congr fun r hr => (h r hr).log

theorem sequence (hcls : s.data.cls = .ok ∨ s.data.cls = .fail) (h : ∀ r ∈ s.sons, Renders r) :
    Renders s := by
  refine ⟨?_, ?_, ?_⟩
  · rw [State.getValueForLog_eq, State.getStringToSend_eq]
    cases hcls with
    | inl hc => rw [hc]; exact sons_eq h
    | inr hc => rw [hc]; exact sons_eq h
  · cases hcls with
    | inl hc => rw [hc]; nofun
    | inr hc => rw [hc]; nofun
  · cases hcls with
    | inl hc => rw [hc]; nofun
    | inr hc => rw [hc]; nofun

theorem bytes (hcls : s.data.cls = .valueHex ∨ s.data.cls = .readPacket) : Renders s := by
  refine ⟨?_, ?_, ?_⟩
  · rw [State.getValueForLog_eq, State.getStringToSend_eq]
    cases hcls with
    | inl hc => rw [hc]
    | inr hc => rw [hc]
  · cases hcls with
    | inl hc => rw [hc]; nofun
    | inr hc => rw [hc]; nofun
  · cases hcls with
    | inl hc => rw [hc]; nofun
    | inr hc => rw [hc]; nofun

theorem number (hcls : s.data.cls = .valueInt) : Renders s := by
  refine ⟨?_, by rw [hcls]; nofun, by rw [hcls]; nofun⟩
  rw [State.getValueForLog_eq, State.getStringToSend_eq, hcls]
  exact (render_showInt _).symm

theorem text (hcls : s.data.cls = .valueString) (hmark : s.data.stateValue ≠ .packetValue)
    (h : ∀ c ∈ s.data.stringValue, isPrint c = true) : Renders s := by
  refine ⟨?_, by rw [hcls]; nofun, fun _ => hmark⟩
  rw [State.getValueForLog_eq, State.getStringToSend_eq, hcls]
  simp only [if_neg hmark]
  exact List.flatMap_congr fun c hc => (hexLogByte_of_isPrint (h c hc)).symm

end Renders

/-- A name does not change what is logged. -/
@[simp] theorem State.getValueForLog_setName (n : String) (s : State) :
    (s.setName n).getValueForLog = s.getValueForLog := by
  induction s using State.induction with
  | h s ih =>
      have hsons : (s.sons.map (setName n)).flatMap getValueForLog =
          s.sons.flatMap getValueForLog := by
        rw [List.flatMap_map]
        exact List.flatMap_congr ih
      rw [setName_eq, getValueForLog_eq, getValueForLog_eq s]
      cases hc : s.data.cls <;> simp [hc, hsons, StateData.raw, StateData.binStringToSend]

@[simp] theorem State.cls_setName (n : String) (s : State) :
    (s.setName n).data.cls = s.data.cls := by
  rw [setName_eq]
  cases hc : s.data.cls <;> simp [hc]

/-- A selected result is logged as before. -/
theorem Renders.select {r : State} (h : Renders r) (n : String) :
    Renders (r.setFaultValue.setName n) := by
  have hcls : (r.setFaultValue.setName n).data.cls = r.data.cls := by
    rw [State.cls_setName, State.setFaultValue, State.setStateValue_data]
  refine ⟨?_, hcls ▸ h.cls, fun _ => ?_⟩
  · rw [State.getValueForLog_setName, State.getStringToSend_setName, State.setFaultValue,
      State.getStringToSend_setStateValue, ← h.log, State.getValueForLog_eq,
      State.getValueForLog_eq r, State.setStateValue_data, State.setStateValue_sons]
    cases hc : r.data.cls with
    | valueString => simp [h.mark hc]
    | sendPacket => exact absurd hc h.cls
    | ok => rfl
    | fail => rfl
    | valueHex => rfl
    | valueInt => rfl
    | valueBin => rfl
    | readPacket => rfl
  · rw [State.stateValue_setName, State.setFaultValue, State.setStateValue_data]
    simp

/-! ## Leaves -/

/-- A leaf whose text is logged as it is sent, as every token of the scanner: the
text of a string leaf is printable, and a binary leaf is a literal. -/
def PlainLeaf : Composite → Prop
  | .leaf .stringLeaf _ name => ∀ c ∈ name, isPrint c = true
  | .leaf .binLeaf _ name => ∃ b text, name = 37 :: b :: text ∧ (b = 98 ∨ b = 66) ∧
      ∀ c ∈ text, c ∈ ascii "01.-"
  | _ => True

/-- A binary literal is sent as it is written. -/
theorem binStringToSend_of_plainLeaf {id : Nat} {name : Bytes}
    (h : PlainLeaf (.leaf .binLeaf id name)) {d : StateData}
    (hd : d.stringValue = name) : d.binStringToSend = name ∧ ∀ c ∈ name, isPlain c = true := by
  obtain ⟨b, text, rfl, hb, htext⟩ := h
  have hchar : ∀ c ∈ 37 :: b :: text, c ∈ ascii "%bB01.-" := by
    intro c hc
    simp only [List.mem_cons] at hc
    obtain rfl | rfl | hc := hc
    · decide
    · obtain rfl | rfl := hb <;> decide
    · exact (by decide : ascii "01.-" ⊆ ascii "%bB01.-") (htext c hc)
  have hnot : ∀ {x : UInt8}, x ∉ ascii "%bB01.-" → x ∉ 37 :: b :: text :=
    fun hx hmem => hx (hchar _ hmem)
  refine ⟨?_, fun c hc => ?_⟩
  · rw [StateData.binStringToSend, hd]
    rw [find_eq_none_of_mem (a := 92) (by decide) (hnot (by decide)),
      find_eq_none_of_mem (a := 120) (by decide) (hnot (by decide)),
      find_eq_none_of_mem (a := 100) (by decide) (hnot (by decide))]
    rfl
  · have hall : ∀ c ∈ ascii "%bB01.-", isPlain c = true := List.all_eq_true.mp rfl
    exact hall c (hchar c hc)

/-- The class of the state a command returns when no check fails. -/
def Command.stateClass : Command → StateClass
  | .variableCommand | .memorizeCommand | .lengthCommand | .md5Command | .base64DecodeCommand =>
      .valueHex
  | .additionCommand | .ceilDivideCommand => .valueInt
  | .base64EncodeCommand | .stringLengthCommand | .repeatCommand => .valueString
  | .maskCheckCommand | .valueCheckCommand | .uPauseCommand => .ok

/-- A state of the class of a command. -/
def Command.Returns (c : Command) (s : State) : Prop :=
  s.data.cls = c.stateClass ∨ c.stateClass = .ok ∧ s.data.cls = .fail

section Commands

variable {P : Platform} {id : Nat} {name : Bytes} {result : List State} {e e' : Env} {s : State}

theorem runMaskCheck_returns :
    Comp.Yields Command.maskCheckCommand.Returns (runMaskCheck id name result) := by
  refine .bind fun frame => ?_
  have hend : ∀ equal : Bool, Comp.Yields Command.maskCheckCommand.Returns
      ((if equal = true then
        (pure (((State.okState id).update (StateData.setStringValue name)).push result))
      else pure (((State.failState id).update (StateData.setStringValue
        (ascii "MaskCheck Fail"))).setFailValue.push result)) : EnvComp State) :=
    fun equal => .ite (.pure (.inl rfl)) (.pure (.inr ⟨rfl, rfl⟩))
  exact .ite (.bind fun _ => .bind fun _ => .bind fun _ => hend _) (.bind fun _ => hend _)

theorem runLength_returns : Comp.Yields Command.lengthCommand.Returns (runLength P id result) :=
  .ite (.bind fun _ => .bind fun _ => .ite (.fault _) (.ite (.fault _) (.pure (.inl rfl))))
    (.pure (.inl rfl))

/-- The class of the state a command returns. -/
theorem finish_returns {c : Command} (h : c.finish P id name result e = .ok (s, e')) :
    c.Returns s := by
  cases c with
  | variableCommand =>
      obtain ⟨_, _, _, _, _, rfl⟩ | ⟨_, _, _, _, _, _, rfl⟩ := runVariable_ok h
      · exact .inl rfl
      · exact .inl rfl
  | memorizeCommand =>
      obtain ⟨_, _, _, _, _, rfl⟩ | ⟨_, _, _, _, _, _, rfl⟩ := runMemorize_ok h
      · exact .inl rfl
      · exact .inl rfl
  | additionCommand => exact Comp.Yields.of_ok h (.bind fun _ => .pure (.inl rfl))
  | ceilDivideCommand =>
      exact Comp.Yields.of_ok h (.bind fun _ => .bind fun _ => .bind fun _ => .pure (.inl rfl))
  | repeatCommand => exact Comp.Yields.of_ok h (.bind fun _ => .bind fun _ => .pure (.inl rfl))
  | lengthCommand => exact Comp.Yields.of_ok h runLength_returns
  | stringLengthCommand =>
      exact Comp.Yields.of_ok h (.ite (.bind fun _ => .pure (.inl rfl)) (.pure (.inl rfl)))
  | maskCheckCommand => exact Comp.Yields.of_ok h runMaskCheck_returns
  | valueCheckCommand =>
      exact Comp.Yields.of_ok h (.bind fun _ => .bind fun _ => .bind fun _ => .bind fun _ =>
        .bind fun _ => .ite (.pure (.inl rfl)) (.pure (.inr ⟨rfl, rfl⟩)))
  | uPauseCommand =>
      exact Comp.Yields.of_ok h (.ite (.bind fun _ => .pure (.inl rfl)) (.pure (.inl rfl)))
  | md5Command => exact Comp.Yields.of_ok h (.pure (.inl rfl))
  | base64EncodeCommand => exact Comp.Yields.of_ok h (.pure (.inl rfl))
  | base64DecodeCommand => exact Comp.Yields.of_ok h (.pure (.inl rfl))

/-! ### Texts -/

/-- The arguments of a `Repeat` command: a text, and how often it is repeated. -/
structure Repeats (result : List State) (text : Bytes) (times : Nat) : Prop where
  text : ∃ t, result[1]? = some t ∧ t.getStringValue = text
  times : ∃ t i, result[2]? = some t ∧ t.getIntegerValue = .ok i ∧ repeatTimes i = times

end Commands

/-! ## What is on the wire of a node -/

section Wires

variable {P : Platform} {sel : Nat → Nat}

/-- A node whose strategy is a send. -/
def IsSend : Composite → Prop
  | .node .composite _ _ sons => ∃ socket, factoryAction sons = .sendAction socket
  | _ => False

/-- Whether the state of a node sends what its son at place `i` does. -/
def Carries (sel : Nat → Nat) : Composite → Nat → Prop
  | .node .composite _ _ sons, _ => factoryAction sons = .returnAction ∨
      ∃ c, factoryAction sons = .command c ∧ c.stateClass = .ok
  | .node .orComposite id _ _, i => i = sel id
  | .node .repeatComposite _ _ _, _ => True
  | .leaf _ _ _, _ => False

/-- What the run of a node from `e` sends has in it what the run of `x` from `e'`
does. -/
inductive OnWire (P : Platform) (sel : Nat → Nat) :
    Composite → Env → Composite → Env → Prop where
  | here {c : Composite} {e : Env} : OnWire P sel c e c e
  | son {c d x : Composite} {e ed e' : Env} {i : Nat} (h : RunsSon P sel c e i d ed)
      (hc : Carries sel c i) (hx : OnWire P sel d ed x e') : OnWire P sel c e x e'

/-- A `Repeat` command that makes a copy repeats a printable text. -/
def RepeatsPrintable (P : Platform) (sel : Nat → Nat) : Composite → Env → Prop
  | .node .composite _ _ sons, e => factoryAction sons = .command .repeatCommand →
      ∀ result e' text times, evalSons P sel sons e = .ok (result, e') →
        Repeats result text times → 0 < times → ∀ c ∈ text, isPrint c = true
  | _, _ => True

/-- Nothing on the wire of a node is a send or a text that cannot be printed. -/
def Legible (P : Platform) (sel : Nat → Nat) (c : Composite) (e : Env) : Prop :=
  ∀ x ex, OnWire P sel c e x ex → ¬ IsSend x ∧ PlainLeaf x ∧ RepeatsPrintable P sel x ex

theorem Legible.son {c d : Composite} {e ed : Env} {i : Nat} (h : Legible P sel c e)
    (hson : RunsSon P sel c e i d ed) (hc : Carries sel c i) : Legible P sel d ed :=
  fun x ex hx => h x ex (.son hson hc hx)

/-- A sequence keeps the results of its sons. -/
theorem returnAction_sons {id : Nat} {name : Bytes} {brk : EnvComp (List State)} {e e' : Env}
    {s : State} (h : returnAction id name brk e = .ok (s, e')) :
    brk e = .ok (s.sons, e') ∧ (s.data.cls = .ok ∨ s.data.cls = .fail) := by
  obtain ⟨result, last, hbrk, _, rfl⟩ := returnAction_ok h
  cases last.isFailValue with
  | true => exact ⟨hbrk, .inr rfl⟩
  | false => exact ⟨hbrk, .inl rfl⟩

@[simp] theorem sentState_cls (id : Nat) (data : Bytes) (n : Int) (result : List State) :
    (sentState id data n result).data.cls = .sendPacket := by
  rw [sentState, State.setPacketValue, State.setStateValue_data, State.data_push]
  split <;> rfl

@[simp] theorem sentState_sons (id : Nat) (data : Bytes) (n : Int) (result : List State) :
    (sentState id data n result).sons = result := by
  rw [sentState, State.setPacketValue, State.setStateValue_sons, State.sons_push]
  split <;> rfl

/-- The frame of the last round is the packet received. -/
theorem readRound_frame {sons : List Composite} {id : Nat} {e e' : Env} {o : ReadOutcome}
    {result : List State} {res : State}
    (h : readRound P id (evalSons P sel sons) e = .ok ((o, result, res), e')) :
    ∃ e₁ e₂, roundStart P id e = .ok (o, e₁) ∧ evalSons P sel sons e₁ = .ok (result, e₂) ∧
      res = (frameOf P id o).push result := by
  obtain ⟨e₁, e₂, frame, hstart, hrun, hframe, rfl, _⟩ := readRound_ok h
  refine ⟨e₁, e₂, hstart, hrun, ?_⟩
  obtain ⟨_, he₁⟩ := roundStart_ok hstart
  have heffect := evalSons_effect hrun
  cases heffect.frame with
  | inl heq =>
      rw [hframe, he₁] at heq
      rw [Option.some.inj heq]
  | inr hnone =>
      rw [hframe] at hnone
      cases hnone

theorem frameOf_cls (P : Platform) (id : Nat) (o : ReadOutcome) :
    (frameOf P id o).data.cls = .readPacket := by
  unfold frameOf
  split
  · rfl
  · rfl

/-- The results that a send of the run of `c` from `e` hands to its socket. -/
inductive Sent (P : Platform) (sel : Nat → Nat) (c : Composite) (e : Env) :
    List State → Prop where
  | intro {id : Nat} {name : Bytes} {sons : List Composite} {ex e₁ : Env} {socket : Transport}
      {result : List State} (hx : Visits P sel c e (.node .composite id name sons) ex)
      (ha : factoryAction sons = .sendAction socket)
      (hrun : evalSons P sel sons ex = .ok (result, e₁)) : Sent P sel c e result

theorem Sent.son {c d : Composite} {e ed : Env} {i : Nat} {result : List State}
    (h : Sent P sel d ed result) (hson : RunsSon P sel c e i d ed) : Sent P sel c e result := by
  cases h with
  | intro hx ha hrun => exact .intro (.son hson hx) ha hrun

/-- The socket gets the data of the results. -/
theorem Sent.trace {c : Composite} {e e' : Env} {s : State} {result : List State}
    (h : Sent P sel c e result) (hrun : eval P sel c e = .ok (s, e')) :
    ∃ n, .send (dataToSend result) n ∈ e'.trace := by
  cases h with
  | @intro id name sons ex e₁ socket _ hx ha hsons =>
      obtain ⟨_, sx, ex', heval, hafter⟩ := hx.inside hrun
      rw [eval, strategyOf, ha] at heval
      obtain ⟨result', e₂, hsons', _, rfl⟩ := sendAction_ok heval
      rw [hsons] at hsons'
      cases hsons'
      refine ⟨e₁.sends.headD (dataToSend result).length, hafter.trace.subset ?_⟩
      exact List.mem_append_right _ (List.mem_singleton.mpr rfl)

/-- A send in the state of a run that keeps its mark and is logged as it was
sent. -/
structure Logged (P : Platform) (sel : Nat → Nat) (c : Composite) (e : Env) (x : State) :
    Prop where
  mark : x.data.stateValue = .packetValue
  log : x.sons.flatMap State.getValueForLog = (dataToSend x.sons).flatMap hexLogByte
  sent : Sent P sel c e x.sons

theorem Logged.son {c d : Composite} {e ed : Env} {i : Nat} {x : State}
    (h : Logged P sel d ed x) (hson : RunsSon P sel c e i d ed) : Logged P sel c e x :=
  ⟨h.mark, h.log, h.sent.son hson⟩

/-- The same state under another name or with another variable. -/
theorem Logged.congr {c : Composite} {e : Env} {x y : State} (h : Logged P sel c e y)
    (hsons : x.sons = y.sons) (hmark : x.data.stateValue = y.data.stateValue) :
    Logged P sel c e x :=
  ⟨hmark.trans h.mark, by rw [hsons]; exact h.log, by rw [hsons]; exact h.sent⟩

theorem Logged.getValueForLog {c : Composite} {e : Env} {x : State} (h : Logged P sel c e x)
    (hcls : x.data.cls = .sendPacket) :
    x.getValueForLog = (dataToSend x.sons).flatMap hexLogByte := by
  rw [State.getValueForLog_eq, hcls]
  simp only [if_pos h.mark]
  exact h.log

/-- All the sends in a state are logged as they were sent. -/
def LogsSends (P : Platform) (sel : Nat → Nat) (c : Composite) (e : Env) (s : State) : Prop :=
  ∀ x ∈ s.states, x.data.cls = .sendPacket → Logged P sel c e x

theorem LogsSends.son {c d : Composite} {e ed : Env} {i : Nat} {s : State}
    (h : LogsSends P sel d ed s) (hson : RunsSon P sel c e i d ed) : LogsSends P sel c e s :=
  fun x hx hcls => (h x hx hcls).son hson

/-- A state that is no send itself. -/
theorem LogsSends.of_sons {c : Composite} {e : Env} {s : State} (hcls : s.data.cls ≠ .sendPacket)
    (h : ∀ r ∈ s.sons, LogsSends P sel c e r) : LogsSends P sel c e s := by
  intro x hx hx'
  rw [State.states_eq] at hx
  cases List.mem_cons.mp hx with
  | inl heq => exact absurd (heq ▸ hx') hcls
  | inr hmem =>
      obtain ⟨r, hr, hxr⟩ := List.mem_flatMap.mp hmem
      exact h r hr x hxr hx'

/-- The sends in a renamed state. -/
theorem mem_states_setName (n : String) {s x : State} (hx : x ∈ (s.setName n).states)
    (hcls : x.data.cls = .sendPacket) : ∃ y ∈ s.states, y.data.cls = .sendPacket ∧
      x.sons = y.sons ∧ x.data.stateValue = y.data.stateValue := by
  induction s using State.induction generalizing x with
  | h s ih =>
      rw [State.states_eq] at hx
      -- Only a state that is no value hands the name to its sons.
      have hvalue : s.setName n = .mk { s.data with name := n } s.sons →
          ∃ y ∈ s.states, y.data.cls = .sendPacket ∧ x.sons = y.sons ∧
            x.data.stateValue = y.data.stateValue := by
        intro heq
        rw [heq] at hx
        cases List.mem_cons.mp hx with
        | inl hself =>
            refine ⟨s, by rw [State.states_eq]; exact List.mem_cons_self, ?_, ?_, ?_⟩
            · rw [hself] at hcls
              exact hcls
            · rw [hself]; rfl
            · rw [hself]; rfl
        | inr hmem =>
            refine ⟨x, ?_, hcls, rfl, rfl⟩
            rw [State.states_eq]
            exact List.mem_cons_of_mem _ hmem
      have hsequence : s.setName n = .mk s.data (s.sons.map (State.setName n)) →
          s.data.cls ≠ .sendPacket → ∃ y ∈ s.states, y.data.cls = .sendPacket ∧ x.sons = y.sons ∧
            x.data.stateValue = y.data.stateValue := by
        intro heq hne
        rw [heq] at hx
        cases List.mem_cons.mp hx with
        | inl hself =>
            rw [hself] at hcls
            exact absurd hcls hne
        | inr hmem =>
            obtain ⟨r', hr', hxr⟩ := List.mem_flatMap.mp hmem
            obtain ⟨r, hr, rfl⟩ := List.mem_map.mp hr'
            obtain ⟨y, hy, hrest⟩ := ih r hr hxr hcls
            refine ⟨y, ?_, hrest⟩
            rw [State.states_eq]
            exact List.mem_cons_of_mem _ (List.mem_flatMap.mpr ⟨r, hr, hy⟩)
      have hname := State.setName_eq n s
      cases hc : s.data.cls with
      | ok => exact hsequence (by rw [hname, hc]) (by rw [hc]; nofun)
      | fail => exact hsequence (by rw [hname, hc]) (by rw [hc]; nofun)
      | valueString => exact hvalue (by rw [hname, hc])
      | valueHex => exact hvalue (by rw [hname, hc])
      | valueInt => exact hvalue (by rw [hname, hc])
      | valueBin => exact hvalue (by rw [hname, hc])
      | sendPacket => exact hvalue (by rw [hname, hc])
      | readPacket => exact hvalue (by rw [hname, hc])

/-- A selected result that is no send keeps the sends in it. -/
theorem LogsSends.select {c : Composite} {e : Env} {r : State} (h : LogsSends P sel c e r)
    (hcls : r.data.cls ≠ .sendPacket) (n : String) :
    LogsSends P sel c e (r.setFaultValue.setName n) := by
  intro x hx hx'
  obtain ⟨y, hy, hycls, hsons, hmark⟩ := mem_states_setName n hx hx'
  have hlogs : LogsSends P sel c e r.setFaultValue := by
    refine .of_sons ?_ fun t ht => ?_
    · rw [State.setFaultValue, State.setStateValue_data]
      exact hcls
    · rw [State.setFaultValue, State.setStateValue_sons] at ht
      intro z hz
      refine h z ?_
      rw [State.states_eq]
      exact List.mem_cons_of_mem _ (List.mem_flatMap.mpr ⟨t, ht, hz⟩)
  exact (hlogs y hy hycls).congr hsons hmark

/-- A result to which a variable points. -/
theorem LogsSends.bind {c : Composite} {e : Env} {r : State} (h : LogsSends P sel c e r)
    (var : Bytes) : LogsSends P sel c e (r.bind var) := by
  intro x hx hcls
  rw [State.states_eq] at hx
  cases List.mem_cons.mp hx with
  | inl hself =>
      rw [hself, State.bind, State.data_update] at hcls
      have hr := h r (by rw [State.states_eq]; exact List.mem_cons_self) hcls
      refine hr.congr ?_ ?_
      · rw [hself, State.bind, State.sons_update]
      · rw [hself, State.bind, State.data_update]
  | inr hmem =>
      rw [State.bind, State.sons_update] at hmem
      refine h x ?_ hcls
      rw [State.states_eq]
      exact List.mem_cons_of_mem _ hmem

/-- What a run has to keep to, for its log to agree with what it has sent: no
alternation selects a send, and the data of every send is legible. -/
structure KeepsLog (P : Platform) (sel : Nat → Nat) (c : Composite) (e : Env) : Prop where
  selects : ∀ id name sons ex d, Visits P sel c e (.node .orComposite id name sons) ex →
    sons[sel id]? = some d → ¬ IsSend d
  legible : ∀ x ex i d ed, Visits P sel c e x ex → IsSend x → RunsSon P sel x ex i d ed →
    Legible P sel d ed

theorem KeepsLog.son {c d : Composite} {e ed : Env} {i : Nat} (h : KeepsLog P sel c e)
    (hson : RunsSon P sel c e i d ed) : KeepsLog P sel d ed where
  selects id name sons ex d' hx := h.selects id name sons ex d' (.son hson hx)
  legible x ex j d' ed' hx := h.legible x ex j d' ed' (.son hson hx)

end Wires

/-! ## The runs of the program -/

namespace Main

end Main

end Stress

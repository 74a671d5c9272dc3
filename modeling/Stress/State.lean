import Stress.Library.Text

/-!
# States

A state is the result of evaluating a node: its own data and the states derived
from it (`lib/state`).  What a state sends on the wire and what it writes to the
log are virtual functions of its class.  `OkState` and `FailState` concatenate
their sons, `ValueStringState` and its packet form send their string view,
`ValueHexState` and `ReadPacketState` their raw bytes, `ValueIntState` its
integer in decimal.

Two fields stand for pointers.  `rawValue` is `none` where `raw_value` is the
null pointer.  `boundAs` lists the variables of the test case manager that point
to this very state, so that deleting or renaming a state reaches them.

`int_value` after `setRawValue` is read past the end of a short buffer.  The
model reads zeros there.  No class whose raw value is set reads it.
-/

namespace Stress

/-- What stops a run: undefined behaviour, an exception nobody catches, or
`exit`.  The last one is never reached (`eval_ends`). -/
inductive Fault where
  | nullPointer
  | outOfBounds
  | danglingState
  | intOverflow
  | badAlloc
  | usageExit
  | outOfFuel
deriving DecidableEq, Repr

/-- The classes of `lib/state` that a run builds. -/
inductive StateClass where
  | ok
  | fail
  | valueString
  | valueHex
  | valueInt
  | valueBin
  | sendPacket
  | readPacket
deriving DecidableEq, Repr

/-- `getType`. -/
def StateClass.type : StateClass → String
  | .ok => "OKState"
  | .fail => "FailState"
  | .valueString => "ValueStringState"
  | .valueHex => "ValueHexState"
  | .valueInt => "ValueIntState"
  | .valueBin => "ValueBinState"
  | .sendPacket => "SendPacketState"
  | .readPacket => "ReadPacketState"

/-- `enum state`. -/
inductive StateValue where
  | ok
  | fail
  | faultValue
  | packetValue
  | notResult
deriving DecidableEq, Repr

/-- The fields of a state other than its sons. -/
structure StateData where
  cls : StateClass
  rawValue : Option Bytes := none
  stringValue : Bytes := []
  intValue : Int := 0
  stateValue : StateValue := .ok
  compositeId : Nat
  name : String
  /-- The variables that point to this state. -/
  boundAs : List Bytes := []
deriving DecidableEq, Repr

inductive State where
  | mk (data : StateData) (sons : List State)

namespace StateData

/-- `getRawLenght` and the bytes behind `getRawValue`. -/
def raw (d : StateData) : Bytes := d.rawValue.getD []

/-- `setStringValue`: a leading `%` and the character after it are dropped
before the raw and the integer view are read. -/
def setStringValue (s : Bytes) (d : StateData) : StateData :=
  let t := if s.head? = some 37 then s.drop 2 else s
  { d with stringValue := s, rawValue := some (hexBytes t), intValue := atoi t }

/-- `setRawValue(u8p, i)` for a buffer `u8p` and a length inside it.  The string
view is read back by formatted extraction into a local character, which holds
`uninit` before the first extraction.  The integer view takes four bytes, and zeros
for those that a shorter buffer does not have. -/
def setRawValue (uninit : UInt8) (u8p : Bytes) (i : Nat) (d : StateData) : StateData :=
  { d with
    rawValue := some (u8p.take i)
    stringValue := extractChars i (u8p.take i) uninit
    intValue := intAt u8p }

def setIntegerValue (i : Int) (d : StateData) : StateData :=
  { d with rawValue := some (bytesOfInt i), stringValue := showInt i, intValue := i }

/-- The loop of `setAbnfString` that takes the backslash off every `\"`. -/
def unescape (s : Bytes) : Bytes := eraseEach [92, 34] 1 s

/-- `setAbnfString`: strip `\"` at both ends, then every backslash in front of
a quote. -/
def setAbnfString (s : Bytes) (d : StateData) : StateData :=
  let s := if [92, 34].isPrefixOf s then s.drop 2 else s
  let s := if [92, 34].isSuffixOf s then s.take (s.length - 2) else s
  d.setStringValue (unescape s)

/-- `setAbnfHex`: strip a leading `%x`. -/
def setAbnfHex (s : Bytes) (d : StateData) : StateData :=
  d.setStringValue (if find [37, 120] s = some 0 then s.drop 2 else s)

/-- `setAbnfInt`: strip a leading `%d`. -/
def setAbnfInt (s : Bytes) (d : StateData) : StateData :=
  d.setIntegerValue (atoi (if find [37, 100] s = some 0 then s.drop 2 else s))

/-- `ValueHexState::getIntegerValue`.  A byte is scaled by a power of two in
`double` and the sum is cut back to `int` at every step, so a value past
`INT_MAX`, or a power past the range of `double`, has no defined result. -/
def hexIntegerValue (b : Bytes) : Except Fault Int :=
  if b.length ≤ 128 ∧ (bigEndian b : Int) ≤ intMax then .ok (bigEndian b) else .error .intOverflow

/-- `ValueBinState::getStringToSend`. -/
def binStringToSend (d : StateData) : Bytes :=
  if (find [92, 34] d.stringValue).isSome then eraseEach [92, 34] 2 d.stringValue
  else if (find [37, 120] d.stringValue).isSome then d.raw
  else if (find [37, 100] d.stringValue).isSome then showInt d.intValue
  else d.stringValue

end StateData

/-- `ValueState::parseChar`. -/
def parseChar (c : UInt8) : Bytes :=
  if c = 60 then ascii "&lt;"
  else if c = 62 then ascii "&gt;"
  else if c = 38 then ascii "&amp;"
  else if c = 39 then ascii "&apos;"
  else if c = 34 then ascii "&quot;"
  else if c = 96 then [92, 96]
  else [c]

/-- One byte in `ValueHexState::getValueForLog`. -/
def hexLogByte (c : UInt8) : Bytes :=
  if c < 32 || 126 < c then 37 :: 120 :: showHexByte c else parseChar c

namespace State

def data : State → StateData
  | .mk d _ => d

/-- `getSons`. -/
def sons : State → List State
  | .mk _ ss => ss

/-- Update the fields of a state in place. -/
def update (f : StateData → StateData) : State → State
  | .mk d ss => .mk (f d) ss

/-- `operator<<`. -/
def push (s : State) (ss : List State) : State := .mk s.data (s.sons ++ ss)

/-! ## The constructors of the state classes -/

def ofClass (cls : StateClass) (name : String) (id : Nat) : State :=
  .mk { cls := cls, compositeId := id, name := name } []

def okState : Nat → State := ofClass .ok "OKState"

def failState (id : Nat) : State :=
  .mk { cls := .fail, compositeId := id, name := "FailState", stateValue := .fail } []

def valueStringState : Nat → State := ofClass .valueString "ValueStringState"

def valueHexState : Nat → State := ofClass .valueHex "ValueHexState"

def valueIntState : Nat → State := ofClass .valueInt "ValueIntState"

def valueBinState : Nat → State := ofClass .valueBin "ValueBinState"

def sendPacketState : Nat → State := ofClass .sendPacket "SendPacketState"

def readPacketState : Nat → State := ofClass .readPacket "ReadPacketState"

/-! ## Marks -/

def setStateValue (v : StateValue) : State → State := update fun d => { d with stateValue := v }

def setFaultValue : State → State := setStateValue .faultValue

def setPacketValue : State → State := setStateValue .packetValue

def setFailValue : State → State := setStateValue .fail

def isFailValue (s : State) : Bool := s.data.stateValue == .fail

/-! ## Views -/

/-- `getIntegerValue`, overridden by `ValueHexState`. -/
def getIntegerValue (s : State) : Except Fault Int :=
  match s.data.cls with
  | .valueHex | .readPacket => StateData.hexIntegerValue s.data.raw
  | _ => .ok s.data.intValue

def getStringValue (s : State) : Bytes := s.data.stringValue

mutual

/-- `getStringToSend`: the bytes a state puts on the wire. -/
def getStringToSend : State → Bytes
  | .mk d ss =>
      match d.cls with
      | .ok | .fail => sendSons ss
      | .valueString | .sendPacket => d.stringValue
      | .valueHex | .readPacket => d.raw
      | .valueInt => showInt d.intValue
      | .valueBin => d.binStringToSend

/-- The loop of `State::getStringToSend`. -/
def sendSons : List State → Bytes
  | [] => []
  | s :: ss => getStringToSend s ++ sendSons ss

end

mutual

/-- `getValueForLog`: the text of a state in the log. -/
def getValueForLog : State → Bytes
  | .mk d ss =>
      match d.cls with
      | .ok | .fail => logSons ss
      | .valueString | .sendPacket =>
          if d.stateValue = .packetValue then logSons ss else d.stringValue.flatMap parseChar
      | .valueHex | .readPacket => d.raw.flatMap hexLogByte
      | .valueInt => showInt d.intValue
      | .valueBin => d.binStringToSend

/-- The loop of `State::getValueForLog`. -/
def logSons : List State → Bytes
  | [] => []
  | s :: ss => getValueForLog s ++ logSons ss

end

mutual

/-- `setName`: a `ValueState` takes the name itself, any other state hands it
to its sons. -/
def setName (n : String) : State → State
  | .mk d ss =>
      match d.cls with
      | .ok | .fail => .mk d (setNames n ss)
      | _ => .mk { d with name := n } ss

/-- The loop of `State::setName`. -/
def setNames (n : String) : List State → List State
  | [] => []
  | s :: ss => setName n s :: setNames n ss

end

mutual

/-- The states of a tree that variables point to, with the names. -/
def bindings : State → List (Bytes × State)
  | .mk d ss => d.boundAs.map (·, .mk d ss) ++ bindingsOf ss

def bindingsOf : List State → List (Bytes × State)
  | [] => []
  | s :: ss => bindings s ++ bindingsOf ss

end

/-- The variables that point into a tree of states. -/
def boundNames (s : State) : List Bytes := s.bindings.map Prod.fst

/-! ## Equations -/

@[simp] theorem data_mk (d : StateData) (ss : List State) : (mk d ss).data = d := rfl
@[simp] theorem sons_mk (d : StateData) (ss : List State) : (mk d ss).sons = ss := rfl
@[simp] theorem mk_data_sons (s : State) : mk s.data s.sons = s := by cases s; rfl
@[simp] theorem data_push (s : State) (ss : List State) : (s.push ss).data = s.data := rfl
@[simp] theorem sons_push (s : State) (ss : List State) : (s.push ss).sons = s.sons ++ ss := rfl
@[simp] theorem data_update (f : StateData → StateData) (s : State) :
    (s.update f).data = f s.data := by cases s; rfl
@[simp] theorem sons_update (f : StateData → StateData) (s : State) :
    (s.update f).sons = s.sons := by cases s; rfl
@[simp] theorem data_ofClass (c : StateClass) (n : String) (id : Nat) :
    (ofClass c n id).data = { cls := c, compositeId := id, name := n } := rfl
@[simp] theorem sons_ofClass (c : StateClass) (n : String) (id : Nat) :
    (ofClass c n id).sons = [] := rfl

theorem sendSons_eq (ss : List State) : sendSons ss = ss.flatMap getStringToSend := by
  induction ss with
  | nil => simp [sendSons]
  | cons s ss ih => simp [sendSons, ih]

theorem logSons_eq (ss : List State) : logSons ss = ss.flatMap getValueForLog := by
  induction ss with
  | nil => simp [logSons]
  | cons s ss ih => simp [logSons, ih]

theorem setNames_eq (n : String) (ss : List State) : setNames n ss = ss.map (setName n) := by
  induction ss with
  | nil => simp [setNames]
  | cons s ss ih => simp [setNames, ih]

theorem bindingsOf_eq (ss : List State) : bindingsOf ss = ss.flatMap bindings := by
  induction ss with
  | nil => simp [bindingsOf]
  | cons s ss ih => simp [bindingsOf, ih]

theorem getStringToSend_eq (s : State) : s.getStringToSend =
    match s.data.cls with
    | .ok | .fail => s.sons.flatMap getStringToSend
    | .valueString | .sendPacket => s.data.stringValue
    | .valueHex | .readPacket => s.data.raw
    | .valueInt => showInt s.data.intValue
    | .valueBin => s.data.binStringToSend := by
  cases s
  rw [getStringToSend, sendSons_eq]
  rfl

theorem getValueForLog_eq (s : State) : s.getValueForLog =
    match s.data.cls with
    | .ok | .fail => s.sons.flatMap getValueForLog
    | .valueString | .sendPacket =>
        if s.data.stateValue = .packetValue then s.sons.flatMap getValueForLog
        else s.data.stringValue.flatMap parseChar
    | .valueHex | .readPacket => s.data.raw.flatMap hexLogByte
    | .valueInt => showInt s.data.intValue
    | .valueBin => s.data.binStringToSend := by
  cases s
  rw [getValueForLog, logSons_eq]
  rfl

theorem setName_eq (n : String) (s : State) : s.setName n =
    match s.data.cls with
    | .ok | .fail => .mk s.data (s.sons.map (setName n))
    | _ => .mk { s.data with name := n } s.sons := by
  cases s
  rw [setName, setNames_eq]
  rfl

theorem bindings_eq (s : State) :
    s.bindings = s.data.boundAs.map (·, s) ++ s.sons.flatMap bindings := by
  cases s
  rw [bindings, bindingsOf_eq]
  rfl

/-- Induction along the sons. -/
theorem induction {P : State → Prop} (h : ∀ s, (∀ t ∈ s.sons, P t) → P s) (s : State) : P s := by
  refine @State.rec P (fun ss => ∀ t ∈ ss, P t) ?_ ?_ ?_ s
  · intro d ss ih
    exact h _ ih
  · intro t ht
    cases ht
  · intro t ts iht ihts u hu
    cases List.mem_cons.mp hu with
    | inl he => exact he ▸ iht
    | inr hm => exact ihts u hm

/-! ## What renaming and marking leave alone -/

@[simp] theorem setStateValue_data (v : StateValue) (s : State) :
    (s.setStateValue v).data = { s.data with stateValue := v } := by simp [setStateValue]

@[simp] theorem setStateValue_sons (v : StateValue) (s : State) :
    (s.setStateValue v).sons = s.sons := by simp [setStateValue]

/-- A mark does not change what is sent. -/
@[simp] theorem getStringToSend_setStateValue (v : StateValue) (s : State) :
    (s.setStateValue v).getStringToSend = s.getStringToSend := by
  rw [getStringToSend_eq, getStringToSend_eq]
  simp only [setStateValue_data, setStateValue_sons]
  rfl

/-- A name does not change what is sent. -/
@[simp] theorem getStringToSend_setName (n : String) (s : State) :
    (s.setName n).getStringToSend = s.getStringToSend := by
  induction s using State.induction with
  | h s ih =>
      have hsons : (s.sons.map (setName n)).flatMap getStringToSend =
          s.sons.flatMap getStringToSend := by
        rw [List.flatMap_map]
        exact List.flatMap_congr ih
      rw [setName_eq, getStringToSend_eq, getStringToSend_eq s]
      cases hc : s.data.cls <;> simp [hc, hsons, StateData.raw, StateData.binStringToSend]

/-- The names in a tree of states, from the root down. -/
theorem boundNames_eq (s : State) :
    s.boundNames = s.data.boundAs ++ s.sons.flatMap boundNames := by
  rw [boundNames, bindings_eq, List.map_append, List.map_map, List.map_flatMap]
  congr 1
  exact List.map_id _

@[simp] theorem boundNames_push (s : State) (ss : List State) :
    (s.push ss).boundNames = s.boundNames ++ ss.flatMap boundNames := by
  rw [boundNames_eq, boundNames_eq s, data_push, sons_push, List.flatMap_append, List.append_assoc]

@[simp] theorem boundNames_setStateValue (v : StateValue) (s : State) :
    (s.setStateValue v).boundNames = s.boundNames := by
  rw [boundNames_eq, boundNames_eq s, setStateValue_data, setStateValue_sons]

@[simp] theorem boundNames_setName (n : String) (s : State) :
    (s.setName n).boundNames = s.boundNames := by
  induction s using State.induction with
  | h s ih =>
      have hsons : (s.sons.map (setName n)).flatMap boundNames = s.sons.flatMap boundNames := by
        rw [List.flatMap_map]
        exact List.flatMap_congr ih
      rw [setName_eq, boundNames_eq, boundNames_eq s]
      cases hc : s.data.cls <;> simp [hsons]

@[simp] theorem stateValue_setName (n : String) (s : State) :
    (s.setName n).data.stateValue = s.data.stateValue := by
  rw [setName_eq]
  cases s.data.cls <;> rfl

end State

end Stress

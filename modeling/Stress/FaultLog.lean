import Stress.Library.Numeral
import Stress.Library.Text
import Mathlib.Data.List.Nodup

/-!
# Faults in the log of a test case

`XMLTestcase` (`tools/webui/abnf_validator/lib/output_analyzer.rb`) reads the elements of
a log one after the other and keeps the data of an anomaly until `write_fault` puts it on
the last frame.  The reports of monitors and the distances between reads are left out.

A fault is written when a state with another number or without one comes, or a read.  A
send, a monitor and the end of the log do not write it.  `runs` says what the faults of a
send should be: the runs of states named exactly `Anomaly-n` before the next send or read.

`WellCut` is the condition on the names under which they are.  A log is read with the
positions of the elements for their data as well, so that a fault counts for a run only
if it was made of the states of this run.
-/

namespace Stress.OutputAnalyzer

/-! ## The elements of a log -/

/-- An element with the attributes that are read.  The data are texts over some alphabet. -/
inductive Element (α : Type) where
  | send (data : List α)
  | read (name : Bytes) (data : List α)
  | state (name : Bytes) (data : List α)
  | monitor (name : Bytes) (data : List α)
deriving DecidableEq, Repr

inductive FrameKind where
  | sentFrame
  | readFrame
  | noResponse
deriving DecidableEq, Repr

structure Fault (α : Type) where
  value : List α
  numberOfValue : Option Bytes
deriving DecidableEq, Repr

structure Frame (α : Type) where
  kind : FrameKind
  data : List α
  faults : List (Fault α) := []
deriving DecidableEq, Repr

/-- The digit with which a number begins. -/
def startsNumber (s : Bytes) : Bool :=
  match s with
  | d :: _ => 49 ≤ d && d ≤ 57
  | [] => false

/-- `$1` of `/Anomaly-([1-9]\d*)/`, which may match anywhere in the name. -/
def anomalyNumber? : Bytes → Option Bytes
  | [] => none
  | c :: s =>
      if (ascii "Anomaly-").isPrefixOf (c :: s) && startsNumber ((c :: s).drop 8) then
        some (((c :: s).drop 8).takeWhile isDigit)
      else
        anomalyNumber? s

/-! ## `XMLTestcase` -/

/-- The frames of the test case and the anomaly that is being read. -/
structure XMLTestcase (α : Type) where
  frames : List (Frame α) := []
  anomaly : Option (List α) := none
  anomalyNumberOfValue : Option Bytes := none

namespace XMLTestcase

variable {α : Type}

/-- `write_fault`, `none` if there is no last frame. -/
def writeFault (testcase : XMLTestcase α) : Option (XMLTestcase α) :=
  testcase.frames.getLast?.map fun last =>
    { frames := testcase.frames.dropLast ++ [{ last with
        faults := last.faults ++
          (testcase.anomaly.map fun value => ⟨value, testcase.anomalyNumberOfValue⟩).toList }]
      anomaly := none
      anomalyNumberOfValue := none }

/-- `start_element`. -/
def startElement (testcase : XMLTestcase α) : Element α → Option (XMLTestcase α)
  | .send data => some { testcase with frames := testcase.frames ++ [⟨.sentFrame, data, []⟩] }
  | .state name data =>
      match anomalyNumber? name with
      | some number =>
          (if some number ≠ testcase.anomalyNumberOfValue then testcase.writeFault
            else some testcase).map fun testcase =>
              { testcase with
                anomalyNumberOfValue := some number
                anomaly := some (testcase.anomaly.getD [] ++ data) }
      | none => if testcase.anomaly.isSome then testcase.writeFault else some testcase
  | .read name data =>
      (if testcase.anomaly.isSome then testcase.writeFault else some testcase).map
        fun testcase =>
          { testcase with frames := testcase.frames ++
              [⟨if name = ascii "Data received" then .readFrame else .noResponse, data, []⟩] }
  | .monitor _ _ => some testcase

/-- The frames of a log.  `end_document` does nothing. -/
def parse (log : List (Element α)) : Option (List (Frame α)) :=
  (log.foldlM startElement {}).map frames

end XMLTestcase

section

variable {α : Type}

/-- The faults of the frames that were sent. -/
def sentFaults (frames : List (Frame α)) : List (List (Fault α)) :=
  (frames.filter fun frame => frame.kind = .sentFrame).map Frame.faults

/-! ## The runs of a log -/

/-- The number of a state named exactly `Anomaly-n`. -/
def exactNumber? (name : Bytes) : Option Bytes :=
  if 1 ≤ readNat (name.drop 8) ∧ name = ascii "Anomaly-" ++ showNat (readNat (name.drop 8)) then
    some (showNat (readNat (name.drop 8)))
  else
    none

namespace Element

def isSend : Element α → Bool
  | send _ => true
  | _ => false

def isState : Element α → Bool
  | state _ _ => true
  | _ => false

/-- A send or a read begins a frame. -/
def isFrame : Element α → Bool
  | send _ => true
  | read _ _ => true
  | _ => false

/-- The number in the name of a state. -/
def number? : Element α → Option Bytes
  | state name _ => exactNumber? name
  | _ => none

def stateData : Element α → List α
  | state _ data => data
  | _ => []

/-- Neither a read nor a state that ends the anomaly of this number. -/
def passes (number : Bytes) : Element α → Bool
  | state name _ => anomalyNumber? name = some number
  | read _ _ => false
  | _ => true

end Element

open Element

/-- The faults that a run of elements should give.  A state belongs to the run of its
successor if that has the same name. -/
def runs : List (Element α) → List (Fault α)
  | [] => []
  | e :: es =>
      match e.number? with
      | some number =>
          if es.head?.bind number? = some number then
            match runs es with
            | fault :: faults => { fault with value := e.stateData ++ fault.value } :: faults
            | [] => [⟨e.stateData, some number⟩]
          else
            ⟨e.stateData, some number⟩ :: runs es
      | none => runs es

/-- The runs behind each send, up to the next send or read. -/
def sentRuns : List (Element α) → List (List (Fault α))
  | [] => []
  | .send _ :: es => runs (es.takeWhile fun e => !e.isFrame) :: sentRuns es
  | _ :: es => sentRuns es

/-- The elements with their positions for their data. -/
def positions : Nat → List (Element α) → List (Element Nat)
  | _, [] => []
  | i, .send _ :: es => .send [i] :: positions (i + 1) es
  | i, .read name _ :: es => .read name [i] :: positions (i + 1) es
  | i, .state name _ :: es => .state name [i] :: positions (i + 1) es
  | i, .monitor name _ :: es => .monitor name [i] :: positions (i + 1) es

/-- Every send has the faults of its runs, each made of the states of its run. -/
def Attributed (log : List (Element α)) : Prop :=
  (XMLTestcase.parse log).map sentFaults = some (sentRuns log) ∧
    (XMLTestcase.parse (positions 0 log)).map sentFaults = some (sentRuns (positions 0 log))

/-! ## The condition -/

/-- A state with the number of an anomaly, in front of the rest of the log; `sent` says that
the last frame is a send.

If something ends the anomaly, no send comes before, and if it goes to a send, the name is
exact and no monitor stands in front of a later state of it.  If nothing ends it, it is lost,
and must not have been the run of a send. -/
def Clause (sent : Bool) (name number : Bytes) (rest : List (Element α)) : Prop :=
  if rest.dropWhile (passes number) = [] then
    sent = true → exactNumber? name = none
  else
    (∀ e ∈ rest.takeWhile (passes number), e.isSend = false) ∧
      (sent = true → exactNumber? name ≠ none ∧
        ∀ e ∈ (rest.takeWhile (passes number)).dropWhile isState, e.isState = false)

/-- The clause of every state, from the kind of the frame that is open. -/
def WellCut : Bool → List (Element α) → Prop
  | _, [] => True
  | _, .send _ :: es => WellCut true es
  | _, .read _ _ :: es => WellCut false es
  | sent, .state name _ :: es =>
      (∀ number ∈ anomalyNumber? name, Clause sent name number es) ∧ WellCut sent es
  | sent, .monitor _ _ :: es => WellCut sent es

/-! ## The frames as a recursion -/

def faultOf (p : Bytes × List α) : Fault α := ⟨p.2, some p.1⟩

/-- What a state with a number writes, and the anomaly behind it. -/
def advance (p : Option (Bytes × List α)) (number : Bytes) (data : List α) :
    List (Fault α) × (Bytes × List α) :=
  match p with
  | some (m, value) =>
      if m = number then ([], (number, value ++ data)) else ([⟨value, some m⟩], (number, data))
  | none => ([], (number, data))

/-- The faults of the open frame and the frames to come. -/
def after : Option (Bytes × List α) → List (Element α) → List (Fault α) × List (Frame α)
  | _, [] => ([], [])
  | p, .send data :: es => ([], ⟨.sentFrame, data, (after p es).1⟩ :: (after p es).2)
  | p, .read name data :: es =>
      ((p.map faultOf).toList,
        ⟨if name = ascii "Data received" then .readFrame else .noResponse, data,
          (after none es).1⟩ :: (after none es).2)
  | p, .state name data :: es =>
      match anomalyNumber? name with
      | some number =>
          ((advance p number data).1 ++ (after (some (advance p number data).2) es).1,
            (after (some (advance p number data).2) es).2)
      | none => ((p.map faultOf).toList ++ (after none es).1, (after none es).2)
  | p, .monitor _ _ :: es => after p es

/-- The test case with an open frame and an anomaly. -/
def opened (init : List (Frame α)) (frame : Frame α) (p : Option (Bytes × List α)) :
    XMLTestcase α :=
  ⟨init ++ [frame], p.map Prod.snd, p.map Prod.fst⟩

def Frame.write (frame : Frame α) (faults : List (Fault α)) : Frame α :=
  { frame with faults := frame.faults ++ faults }

theorem writeFault_opened (init : List (Frame α)) (frame : Frame α)
    (p : Option (Bytes × List α)) : (opened init frame p).writeFault =
      some (opened init (frame.write (p.map faultOf).toList) none) := by
  rw [XMLTestcase.writeFault, opened, List.getLast?_concat, Option.map_some, List.dropLast_concat]
  cases p <;> rfl

theorem write_nil (frame : Frame α) : frame.write [] = frame := by
  rw [Frame.write, List.append_nil]

theorem write_write (frame : Frame α) (xs ys : List (Fault α)) :
    (frame.write xs).write ys = frame.write (xs ++ ys) := by
  rw [Frame.write, Frame.write, Frame.write, List.append_assoc]

/-- The fold of `start_element` from an open frame. -/
theorem foldlM_opened (es : List (Element α)) (init : List (Frame α)) (frame : Frame α)
    (p : Option (Bytes × List α)) :
    ((es.foldlM XMLTestcase.startElement (opened init frame p)).map XMLTestcase.frames) =
      some (init ++ frame.write (after p es).1 :: (after p es).2) := by
  induction es generalizing init frame p with
  | nil =>
      rw [after, write_nil]
      rfl
  | cons e es ih =>
      rw [List.foldlM_cons]
      cases e with
      | send data =>
          have hstep : XMLTestcase.startElement (opened init frame p) (.send data) =
              some (opened (init ++ [frame]) ⟨.sentFrame, data, []⟩ p) := rfl
          rw [hstep, Option.bind_eq_bind, Option.bind_some, ih, after, write_nil]
          simp [Frame.write]
      | monitor name data =>
          have hstep : XMLTestcase.startElement (opened init frame p) (.monitor name data) =
              some (opened init frame p) := rfl
          rw [hstep, Option.bind_eq_bind, Option.bind_some, ih, after]
      | read name data =>
          have hstep : XMLTestcase.startElement (opened init frame p) (.read name data) =
              some (opened (init ++ [frame.write (p.map faultOf).toList])
                ⟨if name = ascii "Data received" then .readFrame else .noResponse, data, []⟩
                none) := by
            rw [XMLTestcase.startElement]
            cases p with
            | none =>
                simp only [Option.map_none, Option.toList_none, write_nil]
                rfl
            | some p =>
                have hsome : (opened init frame (some p)).anomaly.isSome = true := rfl
                rw [hsome, if_pos rfl, writeFault_opened]
                rfl
          rw [hstep, Option.bind_eq_bind, Option.bind_some, ih, after]
          simp [Frame.write]
      | state name data =>
          cases hnumber : anomalyNumber? name with
          | none =>
              have hstep : XMLTestcase.startElement (opened init frame p) (.state name data) =
                  some (opened init (frame.write (p.map faultOf).toList) none) := by
                rw [XMLTestcase.startElement, hnumber]
                cases p with
                | none =>
                    simp only [Option.map_none, Option.toList_none, write_nil]
                    rfl
                | some p =>
                    have hsome : (opened init frame (some p)).anomaly.isSome = true := rfl
                    simp only
                    rw [hsome, if_pos rfl, writeFault_opened]
              rw [hstep, Option.bind_eq_bind, Option.bind_some, ih, after, hnumber, write_write]
          | some number =>
              have hstep : XMLTestcase.startElement (opened init frame p) (.state name data) =
                  some (opened init (frame.write (advance p number data).1)
                    (some (advance p number data).2)) := by
                rw [XMLTestcase.startElement, hnumber]
                cases p with
                | none =>
                    simp only
                    rw [if_pos (by rintro ⟨⟩), writeFault_opened]
                    rfl
                | some p =>
                    by_cases hm : p.1 = number
                    · have heq : ¬ some number ≠
                          (opened init frame (some p)).anomalyNumberOfValue := by
                        rw [not_not, ← hm]
                        rfl
                      simp only
                      rw [if_neg heq, advance, if_pos hm, write_nil]
                      rfl
                    · have hne : some number ≠
                          (opened init frame (some p)).anomalyNumberOfValue :=
                        fun h => hm (Option.some.inj h).symm
                      simp only
                      rw [if_pos hne, writeFault_opened, advance, if_neg hm]
                      rfl
              rw [hstep, Option.bind_eq_bind, Option.bind_some, ih, after, hnumber, write_write]

end

/-! ## Names -/

theorem startsNumber_showNat {n : Nat} (h : 1 ≤ n) : startsNumber (showNat n) = true := by
  induction n using Nat.strong_induction_on with
  | _ n ih =>
      have hdigit : ∀ d < 10, 1 ≤ d → startsNumber [d.digitChar.toNat.toUInt8] = true := by decide
      by_cases hn : n < 10
      · rw [showNat, Nat.toDigits_of_lt_base hn, List.map_singleton]
        exact hdigit n hn h
      · have hdiv := ih (n / 10) (by omega) (by omega)
        have hshow : showNat n = showNat (n / 10) ++ [(n % 10).digitChar.toNat.toUInt8] := by
          rw [showNat, showNat, Nat.toDigits_of_base_le (by decide) (by omega), List.map_append]
          rfl
        rw [hshow]
        cases hs : showNat (n / 10) with
        | nil => exact absurd hs (showNat_ne_nil _)
        | cons d s =>
            rw [hs] at hdiv
            exact hdiv

theorem exactNumber?_eq_some {name number : Bytes} (h : exactNumber? name = some number) :
    ∃ n, 1 ≤ n ∧ number = showNat n ∧ name = ascii "Anomaly-" ++ showNat n := by
  rw [exactNumber?] at h
  split at h
  · next hname => exact ⟨_, hname.1, (Option.some.inj h).symm, hname.2⟩
  · cases h

/-- An exact name matches, with its own number. -/
theorem anomalyNumber?_of_exact {name number : Bytes} (h : exactNumber? name = some number) :
    anomalyNumber? name = some number := by
  obtain ⟨n, hn, rfl, rfl⟩ := exactNumber?_eq_some h
  have hcons : ascii "Anomaly-" ++ showNat n =
      65 :: ([110, 111, 109, 97, 108, 121, 45] ++ showNat n) := rfl
  have hdrop : (65 :: ([110, 111, 109, 97, 108, 121, 45] ++ showNat n)).drop 8 = showNat n := rfl
  have hprefix : (ascii "Anomaly-").isPrefixOf
      (65 :: ([110, 111, 109, 97, 108, 121, 45] ++ showNat n)) = true :=
    List.isPrefixOf_iff_prefix.mpr ⟨showNat n, rfl⟩
  rw [hcons, anomalyNumber?, hdrop, hprefix, startsNumber_showNat hn, Bool.and_self, if_pos rfl,
    List.takeWhile_eq_self_iff.mpr fun c hc => isDigit_of_mem_showNat hc]

theorem exactNumber?_eq_none {name : Bytes} (h : anomalyNumber? name = none) :
    exactNumber? name = none := by
  cases hexact : exactNumber? name with
  | none => rfl
  | some number =>
      rw [anomalyNumber?_of_exact hexact] at h
      cases h

theorem eq_of_exact {name m n : Bytes} (hm : anomalyNumber? name = some m)
    (hn : exactNumber? name = some n) : n = m := by
  rw [anomalyNumber?_of_exact hn] at hm
  exact Option.some.inj hm

/-! ## Both sides, element by element -/

section

variable {α : Type}

/-- The faults of the open frame, if it was sent, and of the sends to come. -/
def written (sent : Bool) (p : Option (Bytes × List α)) (es : List (Element α)) :
    List (List (Fault α)) :=
  (if sent then [(after p es).1] else []) ++ sentFaults (after p es).2

/-- The runs of the open frame, if it was sent, and of the sends to come. -/
def due (sent : Bool) (es : List (Element α)) : List (List (Fault α)) :=
  (if sent then [runs (es.takeWhile fun e => !e.isFrame)] else []) ++ sentRuns es

/-- Faults in front of those of the open frame. -/
def front (sent : Bool) (faults : List (Fault α)) (fs : List (List (Fault α))) :
    List (List (Fault α)) :=
  match sent, fs with
  | true, f :: fs => (faults ++ f) :: fs
  | _, fs => fs

theorem front_nil (sent : Bool) (fs : List (List (Fault α))) : front sent [] fs = fs := by
  cases sent <;> cases fs <;> rfl

theorem length_front (sent : Bool) (faults : List (Fault α)) (fs : List (List (Fault α))) :
    (front sent faults fs).length = fs.length := by
  cases sent <;> cases fs <;> rfl

theorem written_true (p : Option (Bytes × List α)) (es : List (Element α)) :
    written true p es = (after p es).1 :: sentFaults (after p es).2 := rfl

theorem due_true (es : List (Element α)) :
    due true es = runs (es.takeWhile fun e => !e.isFrame) :: sentRuns es := rfl

theorem due_false (es : List (Element α)) : due false es = sentRuns es := rfl

theorem written_nil (sent : Bool) (p : Option (Bytes × List α)) :
    written sent p [] = if sent then [[]] else [] := by
  cases sent <;> rfl

theorem due_nil (sent : Bool) : due sent ([] : List (Element α)) = if sent then [[]] else [] := by
  cases sent <;> rfl

theorem written_send (sent : Bool) (p : Option (Bytes × List α)) (data : List α)
    (es : List (Element α)) :
    written sent p (.send data :: es) = (if sent then [[]] else []) ++ written true p es := by
  cases sent <;> rfl

theorem due_send (sent : Bool) (data : List α) (es : List (Element α)) :
    due sent (.send data :: es) = (if sent then [[]] else []) ++ due true es := by
  cases sent <;> rfl

theorem written_read (sent : Bool) (p : Option (Bytes × List α)) (name : Bytes) (data : List α)
    (es : List (Element α)) : written sent p (.read name data :: es) =
      (if sent then [(p.map faultOf).toList] else []) ++ written false none es := by
  have hkind : (if name = ascii "Data received" then FrameKind.readFrame
      else .noResponse) ≠ .sentFrame := by
    split <;> rintro ⟨⟩
  have hsent : sentFaults (after p (.read name data :: es)).2 =
      sentFaults (after none es).2 := by
    rw [after, sentFaults, List.filter_cons, decide_eq_false hkind]
    rfl
  rw [written, hsent, after, written]
  cases sent <;> rfl

theorem due_read (sent : Bool) (name : Bytes) (data : List α) (es : List (Element α)) :
    due sent (.read name data :: es) = (if sent then [[]] else []) ++ due false es := by
  cases sent <;> rfl

theorem written_monitor (sent : Bool) (p : Option (Bytes × List α)) (name : Bytes)
    (data : List α) (es : List (Element α)) :
    written sent p (.monitor name data :: es) = written sent p es := by
  cases sent <;> rfl

theorem due_monitor (sent : Bool) (name : Bytes) (data : List α) (es : List (Element α)) :
    due sent (.monitor name data :: es) = due sent es := by
  cases sent with
  | false => rfl
  | true =>
      rw [due_true, due_true, List.takeWhile_cons]
      rfl

theorem written_other {name : Bytes} (h : anomalyNumber? name = none) (sent : Bool)
    (p : Option (Bytes × List α)) (data : List α) (es : List (Element α)) :
    written sent p (.state name data :: es) =
      front sent (p.map faultOf).toList (written sent none es) := by
  rw [written, after, h]
  cases sent <;> rfl

theorem written_state {name number : Bytes} (h : anomalyNumber? name = some number) (sent : Bool)
    (p : Option (Bytes × List α)) (data : List α) (es : List (Element α)) :
    written sent p (.state name data :: es) =
      front sent (advance p number data).1 (written sent (some (advance p number data).2) es) := by
  rw [written, after, h]
  cases sent <;> rfl

theorem runs_of_none {e : Element α} (h : e.number? = none) (es : List (Element α)) :
    runs (e :: es) = runs es := by
  rw [runs, h]

theorem due_state_of_none {name : Bytes} (h : exactNumber? name = none) (sent : Bool)
    (data : List α) (es : List (Element α)) : due sent (.state name data :: es) = due sent es := by
  cases sent with
  | false => rfl
  | true =>
      have hwhile : ((Element.state name data :: es).takeWhile fun e => !e.isFrame) =
          .state name data :: es.takeWhile fun e => !e.isFrame := List.takeWhile_cons_of_pos rfl
      have hexact : (Element.state name data).number? = none := h
      rw [due_true, due_true, hwhile, runs_of_none hexact]
      rfl

theorem length_written (sent : Bool) (p : Option (Bytes × List α)) (es : List (Element α)) :
    (written sent p es).length = (due sent es).length := by
  induction es generalizing sent p with
  | nil => rw [written_nil, due_nil]
  | cons e es ih =>
      cases e with
      | send data => rw [written_send, due_send, List.length_append, List.length_append, ih]
      | read name data =>
          rw [written_read, due_read, List.length_append, List.length_append, ih]
          cases sent <;> rfl
      | monitor name data => rw [written_monitor, due_monitor, ih]
      | state name data =>
          have hdue : (due sent (.state name data :: es)).length = (due sent es).length := by
            cases sent <;> rfl
          rw [hdue]
          cases hnumber : anomalyNumber? name with
          | none => rw [written_other hnumber, length_front, ih]
          | some number => rw [written_state hnumber, length_front, ih]

end

/-! ## Groups of states -/

section

open Element

variable {α : Type} {sent : Bool} {number : Bytes}

/-- Neither a send nor the end of the anomaly. -/
def Inner (number : Bytes) (es : List (Element α)) : Prop :=
  ∀ e ∈ es, e.passes number = true ∧ e.isSend = false

theorem Inner.tail {e : Element α} {es : List (Element α)} (h : Inner number (e :: es)) :
    Inner number es := fun x hx => h x (List.mem_cons_of_mem e hx)

theorem anomalyNumber?_of_passes {name : Bytes} {data : List α}
    (h : (Element.state name data).passes number = true) : anomalyNumber? name = some number := by
  rw [passes, decide_eq_true_eq] at h
  exact h

/-- How the elements of a log go on: up to what ends an anomaly, up to a send that takes it
along, or up to the end of the log that loses it. -/
inductive Groups : List (Element α) → Prop where
  | nil : Groups []
  | send (data : List α) {es : List (Element α)} : Groups es → Groups (.send data :: es)
  | read (name : Bytes) (data : List α) {es : List (Element α)} :
      Groups es → Groups (.read name data :: es)
  | monitor (name : Bytes) (data : List α) {es : List (Element α)} :
      Groups es → Groups (.monitor name data :: es)
  | other {name : Bytes} (data : List α) {es : List (Element α)} :
      anomalyNumber? name = none → Groups es → Groups (.state name data :: es)
  | cut {name number : Bytes} (data : List α) {inner : List (Element α)} {e : Element α}
      {es : List (Element α)} : anomalyNumber? name = some number → Inner number inner →
      e.passes number = false → Groups (e :: es) → Groups (.state name data :: (inner ++ e :: es))
  | carried {name number : Bytes} (data : List α) {inner : List (Element α)} (next : List α)
      {es : List (Element α)} : anomalyNumber? name = some number → Inner number inner →
      (∃ e ∈ es, e.passes number = false) →
      Groups (.state name data :: (inner ++ .send next :: es))
  | lost {name number : Bytes} (data : List α) {es : List (Element α)} :
      anomalyNumber? name = some number → (∀ e ∈ es, e.passes number = true) →
      Groups (.state name data :: es)

/-- What stands behind a state: by induction on the elements up to the first send or to the
end of the anomaly. -/
theorem inner_cases (number : Bytes) (es : List (Element α)) :
    (∀ e ∈ es, e.passes number = true) ∨
    (∃ inner next rest, es = inner ++ .send next :: rest ∧ Inner number inner ∧
      ∃ e ∈ rest, e.passes number = false) ∨
    ∃ inner e rest, es = inner ++ e :: rest ∧ Inner number inner ∧ e.passes number = false := by
  induction es with
  | nil => exact .inl (List.forall_mem_nil _)
  | cons e es ih =>
      have hnil : Inner number ([] : List (Element α)) := List.forall_mem_nil _
      by_cases hpass : e.passes number = true
      · by_cases hsend : e.isSend = true
        · cases e with
          | send next =>
              by_cases hall : ∀ e ∈ es, e.passes number = true
              · exact .inl (List.forall_mem_cons.mpr ⟨rfl, hall⟩)
              · obtain ⟨x, hx, hnot⟩ : ∃ x ∈ es, ¬ x.passes number = true := by
                  simpa using hall
                exact .inr (.inl ⟨[], next, es, rfl, hnil, x, hx, Bool.eq_false_iff.mpr hnot⟩)
          | read name data => cases hsend
          | state name data => cases hsend
          | monitor name data => cases hsend
        · have hcons : ∀ {inner}, Inner number inner → Inner number (e :: inner) := fun h =>
            List.forall_mem_cons.mpr ⟨⟨hpass, Bool.eq_false_iff.mpr hsend⟩, h⟩
          obtain hall | ⟨inner, next, rest, rfl, hinner, hex⟩ |
            ⟨inner, x, rest, rfl, hinner, hx⟩ := ih
          · exact .inl (List.forall_mem_cons.mpr ⟨hpass, hall⟩)
          · exact .inr (.inl ⟨e :: inner, next, rest, rfl, hcons hinner, hex⟩)
          · exact .inr (.inr ⟨e :: inner, x, rest, rfl, hcons hinner, hx⟩)
      · exact .inr (.inr ⟨[], e, es, rfl, hnil, Bool.eq_false_iff.mpr hpass⟩)

theorem groups (es : List (Element α)) : Groups es := by
  induction hn : es.length using Nat.strong_induction_on generalizing es with
  | _ n ih =>
      subst hn
      cases es with
      | nil => exact .nil
      | cons e es =>
          have htail : Groups es := ih es.length (Nat.lt_succ_self _) es rfl
          cases e with
          | send data => exact .send data htail
          | read name data => exact .read name data htail
          | monitor name data => exact .monitor name data htail
          | state name data =>
              cases hnumber : anomalyNumber? name with
              | none => exact .other data hnumber htail
              | some number =>
                  obtain hall | ⟨inner, next, rest, rfl, hinner, hex⟩ |
                    ⟨inner, x, rest, rfl, hinner, hx⟩ := inner_cases number es
                  · exact .lost data hnumber hall
                  · exact .carried data next hnumber hinner hex
                  · refine .cut data hnumber hinner hx (ih _ ?_ _ rfl)
                    simp only [List.length_cons, List.length_append]
                    omega

/-! ## What is written for a group -/

theorem written_inner {inner : List (Element α)} (h : Inner number inner) (value : List α)
    (es : List (Element α)) : written sent (some (number, value)) (inner ++ es) =
      written sent (some (number, value ++ inner.flatMap stateData)) es := by
  induction inner generalizing value with
  | nil => rw [List.nil_append, List.flatMap_nil, List.append_nil]
  | cons e inner ih =>
      obtain ⟨hpass, hsend⟩ := h e (List.mem_cons_self ..)
      rw [List.cons_append]
      cases e with
      | send data => cases hsend
      | read name data => cases hpass
      | monitor name data =>
          rw [written_monitor, ih h.tail]
          rfl
      | state name data =>
          rw [written_state (anomalyNumber?_of_passes hpass), advance, if_pos rfl, front_nil,
            ih h.tail, List.flatMap_cons, List.append_assoc]
          rfl

/-- What ends an anomaly writes its fault. -/
theorem written_end {e : Element α} (h : e.passes number = false) (value : List α)
    (es : List (Element α)) : written sent (some (number, value)) (e :: es) =
      front sent [⟨value, some number⟩] (written sent none (e :: es)) := by
  cases e with
  | send data => cases h
  | monitor name data => cases h
  | read name data =>
      rw [written_read, written_read]
      cases sent <;> rfl
  | state name data =>
      cases hname : anomalyNumber? name with
      | none =>
          rw [written_other hname, written_other hname, Option.map_none, Option.toList_none,
            front_nil]
          rfl
      | some m =>
          have hne : ¬ number = m := by
            rintro rfl
            rw [passes, hname, decide_eq_false_iff_not] at h
            exact h rfl
          rw [written_state hname, written_state hname, advance, if_neg hne, advance, front_nil]

theorem written_cut {name : Bytes} (hname : anomalyNumber? name = some number)
    {inner : List (Element α)} (hinner : Inner number inner) {e : Element α}
    (he : e.passes number = false) (data : List α) (es : List (Element α)) :
    written sent none (.state name data :: (inner ++ e :: es)) =
      front sent [⟨data ++ inner.flatMap stateData, some number⟩]
        (written sent none (e :: es)) := by
  rw [written_state hname, advance, front_nil, written_inner hinner, written_end he]

/-- A send takes the anomaly along. -/
theorem written_carried {name : Bytes} (hname : anomalyNumber? name = some number)
    {inner : List (Element α)} (hinner : Inner number inner) (data next : List α)
    (es : List (Element α)) : written sent none (.state name data :: (inner ++ .send next :: es)) =
      (if sent then [[]] else []) ++
        written true (some (number, data ++ inner.flatMap stateData)) es := by
  rw [written_state hname, advance, front_nil, written_inner hinner, written_send]

/-- Nothing is written as long as nothing ends the anomaly. -/
theorem written_of_passes {es : List (Element α)} (h : ∀ e ∈ es, e.passes number = true)
    (sent : Bool) (value : List α) : ∀ f ∈ written sent (some (number, value)) es, f = [] := by
  have hopen : ∀ f ∈ (if sent then [([] : List (Fault α))] else []), f = [] := by
    cases sent <;> simp
  induction es generalizing sent value with
  | nil =>
      rw [written_nil]
      exact hopen
  | cons e es ih =>
      obtain ⟨hpass, hrest⟩ := List.forall_mem_cons.mp h
      cases e with
      | send data =>
          rw [written_send]
          exact List.forall_mem_append.mpr ⟨hopen, ih hrest true value (by simp)⟩
      | read name data => cases hpass
      | monitor name data =>
          rw [written_monitor]
          exact ih hrest sent value hopen
      | state name data =>
          rw [written_state (anomalyNumber?_of_passes hpass), advance, if_pos rfl, front_nil]
          exact ih hrest sent _ hopen

/-! ## The runs of a group -/

theorem runs_single {e : Element α} {es : List (Element α)} (h : e.number? = some number)
    (hes : es.head?.bind number? ≠ some number) :
    runs (e :: es) = ⟨e.stateData, some number⟩ :: runs es := by
  simp [runs, h, hes]

theorem runs_merge {e : Element α} {es : List (Element α)} (h : e.number? = some number)
    (hes : es.head?.bind number? = some number) {fault : Fault α} {faults : List (Fault α)}
    (hruns : runs es = fault :: faults) :
    runs (e :: es) = { fault with value := e.stateData ++ fault.value } :: faults := by
  simp [runs, h, hes, hruns]

theorem runs_ne_nil {es : List (Element α)} (h : es.head?.bind number? = some number) :
    runs es ≠ [] := by
  cases es with
  | nil => cases h
  | cons e es =>
      have hexact : e.number? = some number := h
      rw [runs, hexact]
      simp only
      split
      · split <;> exact List.cons_ne_nil _ _
      · exact List.cons_ne_nil _ _

theorem runs_append {xs ys : List (Element α)}
    (hxs : ∀ x ∈ xs, ∀ m, x.number? = some m → m = number)
    (hys : ys.head?.bind number? ≠ some number) : runs (xs ++ ys) = runs xs ++ runs ys := by
  induction xs with
  | nil => rfl
  | cons x xs ih =>
      obtain ⟨hx, hrest⟩ := List.forall_mem_cons.mp hxs
      have htail := ih hrest
      rw [List.cons_append]
      cases hexact : x.number? with
      | none => rw [runs_of_none hexact, runs_of_none hexact, htail]
      | some m =>
          have hm := hx m hexact
          subst hm
          by_cases hhead : xs.head?.bind number? = some m
          · have hhead' : (xs ++ ys).head?.bind number? = some m := by
              cases xs with
              | nil => cases hhead
              | cons y xs => exact hhead
            obtain ⟨fault, faults, hruns⟩ := List.exists_cons_of_ne_nil (runs_ne_nil hhead)
            rw [hruns] at htail
            rw [runs_merge hexact hhead hruns, runs_merge hexact hhead' htail]
            rfl
          · have hhead' : (xs ++ ys).head?.bind number? ≠ some m := by
              cases xs with
              | nil => exact hys
              | cons y xs => exact hhead
            rw [runs_single hexact hhead, runs_single hexact hhead', htail]
            rfl

/-- Each state of the group has an exact name, and they stand one behind the other. -/
def Whole (es : List (Element α)) : Prop :=
  (∀ e ∈ es, e.isState = true → e.number? ≠ none) ∧
    ∀ e ∈ es.dropWhile isState, e.isState = false

theorem not_isFrame_of_inner {e : Element α} (h : e.passes number = true ∧ e.isSend = false) :
    e.isFrame = false := by
  cases e with
  | send data => exact absurd h.2 (by simp [isSend])
  | read name data => exact absurd h.1 (by simp [passes])
  | state name data => rfl
  | monitor name data => rfl

theorem number?_eq_of_passes {e : Element α} (h : e.passes number = true) {m : Bytes}
    (hm : e.number? = some m) : m = number := by
  cases e with
  | send data => cases hm
  | read name data => cases hm
  | monitor name data => cases hm
  | state name data => exact eq_of_exact (anomalyNumber?_of_passes h) hm

theorem sentRuns_inner {inner : List (Element α)} (h : Inner number inner)
    (es : List (Element α)) : sentRuns (inner ++ es) = sentRuns es := by
  induction inner with
  | nil => rfl
  | cons e inner ih =>
      obtain ⟨hpass, hsend⟩ := h e (List.mem_cons_self ..)
      rw [List.cons_append]
      cases e with
      | send data => cases hsend
      | read name data => cases hpass
      | monitor name data => exact ih h.tail
      | state name data => exact ih h.tail

/-- The runs of a group do not go on behind its end. -/
theorem due_inner {inner : List (Element α)} (h : Inner number inner) {e : Element α}
    (he : e.passes number = false) (es : List (Element α)) :
    due sent (inner ++ e :: es) = front sent (runs inner) (due sent (e :: es)) := by
  cases sent with
  | false => exact sentRuns_inner h _
  | true =>
      have hframe : ∀ x ∈ inner, (!x.isFrame) = true := fun x hx => by
        rw [not_isFrame_of_inner (h x hx)]
        rfl
      have hhead : ((e :: es).takeWhile fun e => !e.isFrame).head?.bind number? ≠ some number := by
        intro hsome
        cases e with
        | send data => cases he
        | monitor name data => cases he
        | read name data => cases hsome
        | state name data =>
            have hexact : exactNumber? name = some number := hsome
            rw [passes, anomalyNumber?_of_exact hexact, decide_eq_false_iff_not] at he
            exact he rfl
      rw [due_true, due_true, List.takeWhile_append_of_pos hframe,
        runs_append (fun x hx m hm => number?_eq_of_passes (h x hx).1 hm) hhead, sentRuns_inner h]
      rfl

theorem due_carried {inner : List (Element α)} (h : Inner number inner) (next : List α)
    (es : List (Element α)) : due sent (inner ++ .send next :: es) =
      (if sent then [runs inner] else []) ++ due true es := by
  cases sent with
  | false => exact sentRuns_inner h _
  | true =>
      have hframe : ∀ x ∈ inner, (!x.isFrame) = true := fun x hx => by
        rw [not_isFrame_of_inner (h x hx)]
        rfl
      have hsend : ((Element.send next :: es).takeWhile fun e => !e.isFrame) = [] :=
        List.takeWhile_cons_of_neg (by simp [isFrame])
      rw [due_true, List.takeWhile_append_of_pos hframe, hsend, List.append_nil, sentRuns_inner h]
      rfl

theorem inner_cons {name : Bytes} (hname : anomalyNumber? name = some number) (data : List α)
    {inner : List (Element α)} (h : Inner number inner) :
    Inner number (.state name data :: inner) :=
  List.forall_mem_cons.mpr ⟨⟨by rw [passes, hname, decide_eq_true rfl], rfl⟩, h⟩

theorem runs_of_not_states {es : List (Element α)} (h : ∀ e ∈ es, e.isState = false) :
    runs es = [] ∧ es.flatMap stateData = [] := by
  induction es with
  | nil => exact ⟨rfl, rfl⟩
  | cons e es ih =>
      obtain ⟨he, hes⟩ := List.forall_mem_cons.mp h
      obtain ⟨hruns, hdata⟩ := ih hes
      cases e with
      | state name data => cases he
      | send data => exact ⟨hruns, hdata⟩
      | read name data => exact ⟨hruns, hdata⟩
      | monitor name data => exact ⟨hruns, hdata⟩

/-- A whole group is one run. -/
theorem runs_of_whole {name : Bytes} (hname : anomalyNumber? name = some number) (data : List α)
    {inner : List (Element α)} (h : Inner number inner)
    (hwhole : Whole (.state name data :: inner)) :
    runs (.state name data :: inner) = [⟨data ++ inner.flatMap stateData, some number⟩] := by
  induction inner generalizing name data with
  | nil =>
      obtain ⟨m, hm⟩ := Option.ne_none_iff_exists'.mp (hwhole.1 _ (List.mem_cons_self ..) rfl)
      have hexact : (Element.state name data).number? = some number := by
        rw [hm, eq_of_exact hname hm]
      rw [runs_single hexact (by rintro ⟨⟩), List.flatMap_nil, List.append_nil]
      rfl
  | cons e inner ih =>
      obtain ⟨m, hm⟩ := Option.ne_none_iff_exists'.mp (hwhole.1 _ (List.mem_cons_self ..) rfl)
      have hexact : (Element.state name data).number? = some number := by
        rw [hm, eq_of_exact hname hm]
      by_cases hstate : e.isState = true
      · cases e with
        | send data => cases hstate
        | read name data => cases hstate
        | monitor name data => cases hstate
        | state name' data' =>
            have hpass := (h _ (List.mem_cons_self ..)).1
            have hname' := anomalyNumber?_of_passes hpass
            have hwhole' : Whole (.state name' data' :: inner) := by
              refine ⟨fun x hx => hwhole.1 x (List.mem_cons_of_mem _ hx), ?_⟩
              exact hwhole.2
            have hne := hwhole'.1 _ (List.mem_cons_self ..) rfl
            obtain ⟨k, hk⟩ := Option.ne_none_iff_exists'.mp hne
            have hhead : (Element.state name' data' :: inner).head?.bind number? = some number := by
              rw [List.head?_cons, Option.bind_some, hk, eq_of_exact hname' hk]
            rw [runs_merge hexact hhead (ih hname' data' h.tail hwhole'), List.flatMap_cons]
            rfl
      · have hnone : ∀ x ∈ e :: inner, x.isState = false := by
          have hdrop : (Element.state name data :: e :: inner).dropWhile isState = e :: inner := by
            rw [List.dropWhile_cons_of_pos rfl, List.dropWhile_cons_of_neg hstate]
          rw [← hdrop]
          exact hwhole.2
        obtain ⟨hruns, hdata⟩ := runs_of_not_states hnone
        have hhead : (e :: inner).head?.bind number? ≠ some number := by
          intro hsome
          exact runs_ne_nil hsome hruns
        rw [runs_single hexact hhead, hruns, hdata, List.append_nil]
        rfl

/-! ## Logs whose data can be traced -/

/-- No state without data, and no letter twice. -/
structure Traceable (es : List (Element α)) : Prop where
  nodup : (es.flatMap stateData).Nodup
  ne_nil : ∀ e ∈ es, e.isState = true → e.stateData ≠ []

theorem Traceable.of_append {xs ys : List (Element α)} (h : Traceable (xs ++ ys)) :
    Traceable xs ∧ Traceable ys := by
  have hnodup := h.nodup
  rw [List.flatMap_append] at hnodup
  exact ⟨⟨hnodup.of_append_left, fun e he => h.ne_nil e (List.mem_append_left _ he)⟩,
    ⟨hnodup.of_append_right, fun e he => h.ne_nil e (List.mem_append_right _ he)⟩⟩

theorem Traceable.tail {e : Element α} {es : List (Element α)} (h : Traceable (e :: es)) :
    Traceable es := (@Traceable.of_append _ [e] es h).2

theorem Traceable.disjoint {xs ys : List (Element α)} (h : Traceable (xs ++ ys)) {a : α}
    (hx : a ∈ xs.flatMap stateData) : a ∉ ys.flatMap stateData := by
  have hnodup := h.nodup
  rw [List.flatMap_append] at hnodup
  exact fun hy => List.disjoint_of_nodup_append hnodup hx hy

/-- The runs are made of the states in their order. -/
theorem runs_sublist (es : List (Element α)) :
    ((runs es).flatMap Fault.value).Sublist (es.flatMap stateData) := by
  induction es with
  | nil => exact .slnil
  | cons e es ih =>
      rw [List.flatMap_cons]
      cases hexact : e.number? with
      | none =>
          rw [runs_of_none hexact]
          exact ih.trans (List.sublist_append_right _ _)
      | some m =>
          by_cases hhead : es.head?.bind number? = some m
          · obtain ⟨fault, faults, hruns⟩ := List.exists_cons_of_ne_nil (runs_ne_nil hhead)
            rw [runs_merge hexact hhead hruns, List.flatMap_cons, List.append_assoc]
            rw [hruns, List.flatMap_cons] at ih
            exact (List.Sublist.refl _).append ih
          · rw [runs_single hexact hhead, List.flatMap_cons]
            exact (List.Sublist.refl _).append ih

theorem mem_of_mem_runs {es : List (Element α)} {fault : Fault α} (h : fault ∈ runs es) {a : α}
    (ha : a ∈ fault.value) : a ∈ es.flatMap stateData :=
  (runs_sublist es).subset (List.mem_flatMap.mpr ⟨fault, h, ha⟩)

theorem value_ne_nil {es : List (Element α)} (ht : Traceable es) :
    ∀ fault ∈ runs es, fault.value ≠ [] := by
  induction es with
  | nil => exact List.forall_mem_nil _
  | cons e es ih =>
      have hrest := ih ht.tail
      cases hexact : e.number? with
      | none =>
          rw [runs_of_none hexact]
          exact hrest
      | some m =>
          have hstate : e.isState = true := by
            cases e with
            | state name data => rfl
            | send data => cases hexact
            | read name data => cases hexact
            | monitor name data => cases hexact
          have hdata := ht.ne_nil e (List.mem_cons_self ..) hstate
          by_cases hhead : es.head?.bind number? = some m
          · obtain ⟨fault, faults, hruns⟩ := List.exists_cons_of_ne_nil (runs_ne_nil hhead)
            rw [runs_merge hexact hhead hruns]
            rw [hruns] at hrest
            refine List.forall_mem_cons.mpr ⟨List.append_ne_nil_of_left_ne_nil hdata _, ?_⟩
            exact (List.forall_mem_cons.mp hrest).2
          · rw [runs_single hexact hhead]
            exact List.forall_mem_cons.mpr ⟨hdata, hrest⟩

/-- A traceable group that is one run is whole. -/
theorem whole_of_runs {name : Bytes} (hname : anomalyNumber? name = some number) (data : List α)
    {inner : List (Element α)} (h : Inner number inner)
    (ht : Traceable (.state name data :: inner))
    (hruns : runs (.state name data :: inner) =
      [⟨data ++ inner.flatMap stateData, some number⟩]) :
    Whole (.state name data :: inner) := by
  induction inner generalizing name data with
  | nil =>
      have hexact : (Element.state name data).number? ≠ none := by
        intro hnone
        rw [runs_of_none hnone] at hruns
        cases hruns
      refine ⟨fun x hx _ => ?_, ?_⟩
      · rw [List.mem_singleton.mp hx]
        exact hexact
      · rw [List.dropWhile_cons_of_pos rfl]
        exact List.forall_mem_nil _
  | cons e inner ih =>
      have hdata : data ≠ [] := ht.ne_nil _ (List.mem_cons_self ..) rfl
      cases hexact : (Element.state name data).number? with
      | none =>
          -- The value of the run has the data of the first state.
          rw [runs_of_none hexact] at hruns
          have hsub := (runs_sublist (e :: inner)).length_le
          have hpos := List.length_pos_iff.mpr hdata
          rw [hruns, List.flatMap_singleton] at hsub
          simp only [List.length_append] at hsub
          omega
      | some m =>
          have hm : m = number := eq_of_exact hname hexact
          subst hm
          by_cases hhead : (e :: inner).head?.bind number? = some m
          · cases e with
            | send data => cases hhead
            | read name data => cases hhead
            | monitor name data => cases hhead
            | state name' data' =>
                obtain ⟨fault, faults, hcons⟩ := List.exists_cons_of_ne_nil (runs_ne_nil hhead)
                rw [runs_merge hexact hhead hcons] at hruns
                obtain ⟨hfault, hfaults⟩ := List.cons.inj hruns
                obtain ⟨hvalue, hnum⟩ := Fault.mk.inj hfault
                have hvalue' : fault.value = data' ++ inner.flatMap stateData :=
                  List.append_cancel_left hvalue
                have hrest : runs (.state name' data' :: inner) =
                    [⟨data' ++ inner.flatMap stateData, some m⟩] := by
                  rw [hcons, hfaults, ← hvalue', ← hnum]
                have hpass := (h _ (List.mem_cons_self ..)).1
                have hwhole := ih (anomalyNumber?_of_passes hpass) data' h.tail ht.tail hrest
                refine ⟨List.forall_mem_cons.mpr ⟨fun _ => ?_, hwhole.1⟩, hwhole.2⟩
                rw [hexact]
                exact Option.some_ne_none m
          · rw [runs_single hexact hhead] at hruns
            have hvalue := (Fault.mk.inj (List.cons.inj hruns).1).1
            have hnil : (e :: inner).flatMap stateData = [] := List.self_eq_append_right.mp hvalue
            have hnone : ∀ x ∈ e :: inner, x.isState = false := by
              intro x hx
              refine Bool.eq_false_iff.mpr fun hstate => ?_
              exact ht.tail.ne_nil x hx hstate (List.flatMap_eq_nil_iff.mp hnil x hx)
            refine ⟨List.forall_mem_cons.mpr ⟨fun _ => ?_, fun x hx hstate => ?_⟩, ?_⟩
            · rw [hexact]
              exact Option.some_ne_none m
            · rw [hnone x hx] at hstate
              cases hstate
            · have hdrop : (Element.state name data :: e :: inner).dropWhile isState =
                  e :: inner := by
                have he : ¬ e.isState = true :=
                  Bool.eq_false_iff.mp (hnone e (List.mem_cons_self ..))
                rw [List.dropWhile_cons_of_pos rfl, List.dropWhile_cons_of_neg he]
              rw [hdrop]
              exact hnone

/-! ## The condition for a group -/

theorem wellCut_state {name : Bytes} (hname : anomalyNumber? name = some number) (data : List α)
    (es : List (Element α)) : WellCut sent (.state name data :: es) ↔
      Clause sent name number es ∧ WellCut sent es := by
  rw [WellCut, hname]
  simp

theorem wellCut_other {name : Bytes} (hname : anomalyNumber? name = none) (data : List α)
    (es : List (Element α)) : WellCut sent (.state name data :: es) ↔ WellCut sent es := by
  rw [WellCut, hname]
  simp

theorem dropWhile_passes {inner : List (Element α)} (h : Inner number inner) {e : Element α}
    (he : e.passes number = false) (es : List (Element α)) :
    (inner ++ e :: es).takeWhile (passes number) = inner ∧
      (inner ++ e :: es).dropWhile (passes number) = e :: es := by
  have hpass : ∀ x ∈ inner, x.passes number = true := fun x hx => (h x hx).1
  have hnot : ¬ e.passes number = true := Bool.eq_false_iff.mp he
  rw [List.takeWhile_append_of_pos hpass, List.dropWhile_append_of_pos hpass,
    List.takeWhile_cons_of_neg hnot, List.dropWhile_cons_of_neg hnot]
  exact ⟨List.append_nil inner, rfl⟩

theorem clause_cut {inner : List (Element α)} (h : Inner number inner) {e : Element α}
    (he : e.passes number = false) (name : Bytes) (es : List (Element α)) :
    Clause sent name number (inner ++ e :: es) ↔ (sent = true → exactNumber? name ≠ none ∧
      ∀ x ∈ inner.dropWhile isState, x.isState = false) := by
  obtain ⟨htake, hdrop⟩ := dropWhile_passes h he es
  rw [Clause, htake, hdrop, if_neg (List.cons_ne_nil e es)]
  exact and_iff_right fun x hx => (h x hx).2

theorem not_clause_carried {inner : List (Element α)} (h : Inner number inner) (name : Bytes)
    (next : List α) {es : List (Element α)} (hes : ∃ e ∈ es, e.passes number = false) :
    ¬ Clause sent name number (inner ++ .send next :: es) := by
  have hpass : ∀ x ∈ inner, x.passes number = true := fun x hx => (h x hx).1
  have hdrop : (inner ++ .send next :: es).dropWhile (passes number) ≠ [] := by
    rw [Ne, List.dropWhile_eq_nil_iff]
    obtain ⟨e, he, hnot⟩ := hes
    intro hall
    rw [hall e (List.mem_append_right _ (List.mem_cons_of_mem _ he))] at hnot
    cases hnot
  have hsend : Element.send next ∈ (inner ++ .send next :: es).takeWhile (passes number) := by
    rw [List.takeWhile_append_of_pos hpass, List.takeWhile_cons_of_pos rfl]
    exact List.mem_append_right _ (List.mem_cons_self ..)
  intro hclause
  rw [Clause, if_neg hdrop] at hclause
  cases hclause.1 _ hsend

theorem clause_lost {es : List (Element α)} (h : ∀ e ∈ es, e.passes number = true)
    (name : Bytes) : Clause sent name number es ↔ (sent = true → exactNumber? name = none) := by
  rw [Clause, if_pos (List.dropWhile_eq_nil_iff.mpr h)]

theorem wellCut_inner_false {inner : List (Element α)} (h : Inner number inner) {e : Element α}
    (he : e.passes number = false) (es : List (Element α)) :
    WellCut false (inner ++ e :: es) ↔ WellCut false (e :: es) := by
  induction inner with
  | nil => exact Iff.rfl
  | cons x inner ih =>
      obtain ⟨hpass, hsend⟩ := h x (List.mem_cons_self ..)
      rw [List.cons_append]
      cases x with
      | send data => cases hsend
      | read name data => cases hpass
      | monitor name data => exact ih h.tail
      | state name data =>
          rw [wellCut_state (anomalyNumber?_of_passes hpass), clause_cut h.tail he, ih h.tail]
          simp

theorem wellCut_inner_true {inner : List (Element α)} (h : Inner number inner) {e : Element α}
    (he : e.passes number = false) (es : List (Element α))
    (hfirst : ∀ x ∈ inner.dropWhile isState, x.isState = false) :
    WellCut true (inner ++ e :: es) ↔
      (∀ x ∈ inner, x.isState = true → x.number? ≠ none) ∧ WellCut true (e :: es) := by
  induction inner with
  | nil => simp
  | cons x inner ih =>
      obtain ⟨hpass, hsend⟩ := h x (List.mem_cons_self ..)
      rw [List.cons_append, List.forall_mem_cons]
      cases x with
      | send data => cases hsend
      | read name data => cases hpass
      | monitor name data =>
          rw [List.dropWhile_cons_of_neg (by simp [isState])] at hfirst
          have hrest : ∀ x ∈ inner.dropWhile isState, x.isState = false := fun x hx =>
            hfirst x (List.mem_cons_of_mem _ ((List.dropWhile_suffix _).subset hx))
          rw [WellCut, ih h.tail hrest]
          simp [isState]
      | state name data =>
          rw [List.dropWhile_cons_of_pos rfl] at hfirst
          rw [wellCut_state (anomalyNumber?_of_passes hpass), clause_cut h.tail he,
            ih h.tail hfirst]
          simp [isState, number?]
          tauto

theorem wellCut_cut {name : Bytes} (hname : anomalyNumber? name = some number) (data : List α)
    {inner : List (Element α)} (h : Inner number inner) {e : Element α}
    (he : e.passes number = false) (es : List (Element α)) :
    WellCut sent (.state name data :: (inner ++ e :: es)) ↔
      (sent = true → Whole (.state name data :: inner)) ∧ WellCut sent (e :: es) := by
  rw [wellCut_state hname, clause_cut h he]
  cases sent with
  | false =>
      rw [wellCut_inner_false h he]
      simp
  | true =>
      rw [Whole, List.dropWhile_cons_of_pos rfl, List.forall_mem_cons]
      constructor
      · rintro ⟨hclause, hrest⟩
        obtain ⟨hexact, hfirst⟩ := hclause rfl
        obtain ⟨hinner, hes⟩ := (wellCut_inner_true h he es hfirst).mp hrest
        exact ⟨fun _ => ⟨⟨fun _ => hexact, hinner⟩, hfirst⟩, hes⟩
      · rintro ⟨hwhole, hes⟩
        obtain ⟨⟨hexact, hinner⟩, hfirst⟩ := hwhole rfl
        exact ⟨fun _ => ⟨hexact rfl, hfirst⟩,
          (wellCut_inner_true h he es hfirst).mpr ⟨hinner, hes⟩⟩

/-- As long as nothing ends an anomaly, the condition says that no runs are due. -/
theorem wellCut_iff_of_passes {es : List (Element α)} (h : ∀ e ∈ es, e.passes number = true)
    (sent : Bool) : WellCut sent es ↔ ∀ f ∈ due sent es, f = [] := by
  have hopen : ∀ (b : Bool) (fs : List (List (Fault α))),
      (∀ f ∈ (if b then [[]] else []) ++ fs, f = []) ↔ ∀ f ∈ fs, f = [] := by
    intro b fs
    cases b <;> simp
  induction es generalizing sent with
  | nil =>
      rw [due_nil, ← List.append_nil (if sent then _ else _), hopen]
      simp [WellCut]
  | cons e es ih =>
      obtain ⟨hpass, hrest⟩ := List.forall_mem_cons.mp h
      cases e with
      | send data =>
          rw [due_send, hopen, WellCut]
          exact ih hrest true
      | read name data => cases hpass
      | monitor name data =>
          rw [due_monitor, WellCut]
          exact ih hrest sent
      | state name data =>
          rw [wellCut_state (anomalyNumber?_of_passes hpass), clause_lost hrest]
          have hrec : WellCut sent es ↔ ∀ f ∈ due sent es, f = [] := ih hrest sent
          cases hexact : exactNumber? name with
          | none =>
              rw [due_state_of_none hexact, hrec]
              simp
          | some m =>
              cases sent with
              | false =>
                  rw [hrec]
                  simp [due_false, sentRuns]
              | true =>
                  have hhead : (Element.state name data ::
                      es.takeWhile fun e => !e.isFrame).head?.bind number? = some m := hexact
                  have hwhile : ((Element.state name data :: es).takeWhile fun e => !e.isFrame) =
                      .state name data :: es.takeWhile fun e => !e.isFrame :=
                    List.takeWhile_cons_of_pos rfl
                  rw [due_true, hwhile, List.forall_mem_cons]
                  simp [runs_ne_nil hhead]

/-! ## An anomaly from outside -/

theorem mem_of_mem_takeWhile {es : List (Element α)} {p : Element α → Bool} {a : α}
    (h : a ∈ (es.takeWhile p).flatMap stateData) : a ∈ es.flatMap stateData := by
  obtain ⟨e, he, ha⟩ := List.mem_flatMap.mp h
  exact List.mem_flatMap.mpr ⟨e, (List.takeWhile_sublist p).subset he, ha⟩

/-- An anomaly with a letter from in front of these elements is never written where it is
due, so nothing may end it. -/
theorem passes_of_outside {es : List (Element α)} {value : List α} {a : α} (ha : a ∈ value)
    (hes : a ∉ es.flatMap stateData) {open' : List (Fault α)}
    (hopen : ∀ fault ∈ open', a ∉ fault.value)
    (heq : written true (some (number, value)) es = open' :: sentRuns es) :
    ∀ e ∈ es, e.passes number = true := by
  induction es generalizing value open' with
  | nil => exact List.forall_mem_nil _
  | cons e es ih =>
      have hrest : a ∉ es.flatMap stateData := fun h =>
        hes (List.mem_flatMap.mpr (by
          obtain ⟨x, hx, hmem⟩ := List.mem_flatMap.mp h
          exact ⟨x, List.mem_cons_of_mem e hx, hmem⟩))
      by_cases hpass : e.passes number = true
      · refine List.forall_mem_cons.mpr ⟨hpass, ?_⟩
        cases e with
        | send data =>
            rw [written_send] at heq
            obtain ⟨-, htail⟩ := List.cons.inj heq
            refine ih ha hrest (fun fault hfault hmem => hrest ?_) htail
            exact mem_of_mem_takeWhile (mem_of_mem_runs hfault hmem)
        | read name data => cases hpass
        | monitor name data =>
            rw [written_monitor] at heq
            exact ih ha hrest hopen heq
        | state name data =>
            rw [written_state (anomalyNumber?_of_passes hpass), advance, if_pos rfl,
              front_nil] at heq
            exact ih (List.mem_append_left _ ha) hrest hopen heq
      · rw [written_end (Bool.eq_false_iff.mpr hpass), written_true, front] at heq
        have hmem : (⟨value, some number⟩ : Fault α) ∈ open' := by
          rw [← (List.cons.inj heq).1]
          exact List.mem_append_left _ (List.mem_singleton_self _)
        exact absurd ha (hopen _ hmem)

/-! ## What is written is what is due -/

theorem eq_of_forall_nil : ∀ {xs ys : List (List (Fault α))}, xs.length = ys.length →
    (∀ f ∈ xs, f = []) → (∀ f ∈ ys, f = []) → xs = ys
  | [], [], _, _, _ => rfl
  | [], _ :: _, h, _, _ => by cases h
  | _ :: _, [], h, _, _ => by cases h
  | x :: xs, y :: ys, h, hxs, hys => by
      obtain ⟨hx, hxs⟩ := List.forall_mem_cons.mp hxs
      obtain ⟨hy, hys⟩ := List.forall_mem_cons.mp hys
      rw [hx, hy, eq_of_forall_nil (Nat.succ.inj h) hxs hys]

/-- A lost anomaly is written nowhere. -/
theorem written_lost {name : Bytes} (hname : anomalyNumber? name = some number) (data : List α)
    {es : List (Element α)} (h : ∀ e ∈ es, e.passes number = true) :
    ∀ f ∈ written sent none (.state name data :: es), f = [] := by
  rw [written_state hname, advance, front_nil]
  exact written_of_passes h sent data

theorem passes_cons {name : Bytes} (hname : anomalyNumber? name = some number) (data : List α)
    {es : List (Element α)} (h : ∀ e ∈ es, e.passes number = true) :
    ∀ e ∈ Element.state name data :: es, e.passes number = true :=
  List.forall_mem_cons.mpr ⟨by rw [passes, hname, decide_eq_true rfl], h⟩

/-- The fault of a group in front of others is the only run of the group. -/
theorem runs_eq_singleton {name : Bytes} {data : List α} {inner es : List (Element α)}
    (ht : Traceable ((.state name data :: inner) ++ es))
    (htgroup : Traceable (.state name data :: inner)) {faults : List (Fault α)}
    (heq : [⟨data ++ inner.flatMap stateData, some number⟩] ++ faults =
      runs (.state name data :: inner) ++ runs (es.takeWhile fun e => !e.isFrame)) :
    runs (.state name data :: inner) = [⟨data ++ inner.flatMap stateData, some number⟩] ∧
      faults = runs (es.takeWhile fun e => !e.isFrame) := by
  have hdata : data ≠ [] := htgroup.ne_nil _ (List.mem_cons_self ..) rfl
  obtain ⟨a, ha⟩ := List.exists_mem_of_ne_nil data hdata
  cases hruns : runs (.state name data :: inner) with
  | nil =>
      rw [hruns] at heq
      have hmem : (⟨data ++ inner.flatMap stateData, some number⟩ : Fault α) ∈
          runs (es.takeWhile fun e => !e.isFrame) := by
        rw [← List.nil_append (runs _), ← heq]
        exact List.mem_append_left _ (List.mem_singleton_self _)
      have hin := mem_of_mem_takeWhile (mem_of_mem_runs hmem (List.mem_append_left _ ha))
      exact absurd hin (ht.disjoint (List.mem_append_left _ ha))
  | cons fault rest =>
      rw [hruns] at heq
      obtain ⟨hfault, hrest⟩ := List.cons.inj heq
      have hnil : rest = [] := by
        have hsub := (runs_sublist (.state name data :: inner)).length_le
        rw [hruns, ← hfault, List.flatMap_cons, List.length_append] at hsub
        have hzero : (rest.flatMap Fault.value).length = 0 := by
          have hvalue : ((Element.state name data :: inner).flatMap stateData).length =
              (⟨data ++ inner.flatMap stateData, some number⟩ : Fault α).value.length := rfl
          omega
        cases rest with
        | nil => rfl
        | cons other rest =>
            have hother := value_ne_nil htgroup other (by
              rw [hruns]
              exact List.mem_cons_of_mem _ (List.mem_cons_self ..))
            have hflat := List.eq_nil_of_length_eq_zero hzero
            exact absurd (List.flatMap_eq_nil_iff.mp hflat other (List.mem_cons_self ..)) hother
      rw [hnil] at hrest
      exact ⟨by rw [hnil, hfault], hrest⟩

/-- Under the condition the faults are those that are due, whatever the data. -/
theorem written_eq_due {es : List (Element α)} (h : WellCut sent es) :
    written sent none es = due sent es := by
  induction groups es generalizing sent with
  | nil => rw [written_nil, due_nil]
  | send data hes ih => rw [written_send, due_send, ih h]
  | read name data hes ih => rw [written_read, due_read, ih h]; rfl
  | monitor name data hes ih => rw [written_monitor, due_monitor, ih h]
  | @other name data es hname hes ih =>
      rw [written_other hname, due_state_of_none (exactNumber?_eq_none hname),
        ih ((wellCut_other hname data es).mp h)]
      exact front_nil sent _
  | @cut name number data inner e es hname hinner he hes ih =>
      obtain ⟨hwhole, hrest⟩ := (wellCut_cut hname data hinner he es).mp h
      have hgroup := inner_cons hname data hinner
      rw [written_cut hname hinner he, ← List.cons_append, due_inner hgroup he, ih hrest]
      cases sent with
      | false => rfl
      | true => rw [runs_of_whole hname data hinner (hwhole rfl)]
  | @carried name number data inner next es hname hinner hes =>
      rw [wellCut_state hname] at h
      exact absurd h.1 (not_clause_carried hinner name next hes)
  | @lost name number data es hname hall =>
      refine eq_of_forall_nil (length_written _ _ _) (written_lost hname data hall) ?_
      exact (wellCut_iff_of_passes (passes_cons hname data hall) sent).mp h

/-- Traceable faults that are due obey the condition. -/
theorem wellCut_of_eq {es : List (Element α)} (ht : Traceable es)
    (heq : written sent none es = due sent es) : WellCut sent es := by
  induction groups es generalizing sent with
  | nil => trivial
  | send data hes ih =>
      rw [written_send, due_send, List.append_cancel_left_eq] at heq
      exact ih ht.tail heq
  | read name data hes ih =>
      rw [written_read, due_read] at heq
      exact ih ht.tail (List.append_cancel_left heq)
  | monitor name data hes ih =>
      rw [written_monitor, due_monitor] at heq
      exact ih ht.tail heq
  | @other name data es hname hes ih =>
      rw [written_other hname, due_state_of_none (exactNumber?_eq_none hname), Option.map_none,
        Option.toList_none, front_nil] at heq
      exact (wellCut_other hname data es).mpr (ih ht.tail heq)
  | @cut name number data inner e es hname hinner he hes ih =>
      have hgroup := inner_cons hname data hinner
      rw [← List.cons_append] at ht
      obtain ⟨htgroup, htrest⟩ := ht.of_append
      rw [written_cut hname hinner he, ← List.cons_append, due_inner hgroup he] at heq
      rw [wellCut_cut hname data hinner he]
      cases sent with
      | false => exact ⟨fun h => absurd h Bool.false_ne_true, ih htrest heq⟩
      | true =>
          rw [written_true, due_true, front, front] at heq
          obtain ⟨hopen, hsends⟩ := List.cons.inj heq
          have hsplit := runs_eq_singleton ht htgroup hopen
          refine ⟨fun _ => whole_of_runs hname data hinner htgroup hsplit.1, ih htrest ?_⟩
          rw [written_true, due_true, hsplit.2, hsends]
  | @carried name number data inner next es hname hinner hes =>
      have hgroup := inner_cons hname data hinner
      rw [written_carried hname hinner, ← List.cons_append, due_carried hgroup] at heq
      rw [← List.cons_append] at ht
      have hlength : (if sent then [([] : List (Fault α))] else []).length =
          (if sent then [runs (.state name data :: inner)] else []).length := by
        cases sent <;> rfl
      have htail := (List.append_inj heq hlength).2
      have hdata : data ≠ [] :=
        ht.ne_nil _ (List.mem_append_left _ (List.mem_cons_self ..)) rfl
      obtain ⟨a, ha⟩ := List.exists_mem_of_ne_nil data hdata
      have hout : a ∉ es.flatMap stateData := ht.disjoint (List.mem_append_left _ ha)
      have hall := passes_of_outside (List.mem_append_left _ ha) hout
        (fun fault hfault hmem => hout (mem_of_mem_takeWhile (mem_of_mem_runs hfault hmem))) htail
      obtain ⟨e, he, hnot⟩ := hes
      rw [hall e he] at hnot
      cases hnot
  | @lost name number data es hname hall =>
      refine (wellCut_iff_of_passes (passes_cons hname data hall) sent).mpr ?_
      rw [← heq]
      exact written_lost hname data hall

/-! ## The log with its positions -/

/-- Elements of one kind with one name. -/
def Alike {β : Type} : Element α → Element β → Prop
  | .send _, .send _ => True
  | .read m _, .read n _ => m = n
  | .state m _, .state n _ => m = n
  | .monitor m _, .monitor n _ => m = n
  | _, _ => False

theorem alike_positions (es : List (Element α)) (i : Nat) :
    List.Forall₂ Alike es (positions i es) := by
  induction es generalizing i with
  | nil => exact .nil
  | cons e es ih =>
      cases e with
      | send data => exact .cons trivial (ih (i + 1))
      | read name data => exact .cons rfl (ih (i + 1))
      | state name data => exact .cons rfl (ih (i + 1))
      | monitor name data => exact .cons rfl (ih (i + 1))

section

variable {β : Type} {es : List (Element α)} {fs : List (Element β)}

theorem Alike.passes (number : Bytes) {e : Element α} {f : Element β} (h : Alike e f) :
    f.passes number = e.passes number := by
  cases e <;> cases f <;> cases h <;> rfl

theorem Alike.isSend {e : Element α} {f : Element β} (h : Alike e f) : f.isSend = e.isSend := by
  cases e <;> cases f <;> cases h <;> rfl

theorem Alike.isState {e : Element α} {f : Element β} (h : Alike e f) : f.isState = e.isState := by
  cases e <;> cases f <;> cases h <;> rfl

/-- A test that goes by kind and name cuts alike lists at one place. -/
theorem forall₂_dropWhile {p : Element α → Bool} {q : Element β → Bool}
    (hpq : ∀ e f, Alike e f → q f = p e) (h : List.Forall₂ Alike es fs) :
    List.Forall₂ Alike (es.takeWhile p) (fs.takeWhile q) ∧
      List.Forall₂ Alike (es.dropWhile p) (fs.dropWhile q) := by
  induction h with
  | nil => exact ⟨.nil, .nil⟩
  | @cons e f es fs hef hrest ih =>
      rw [List.takeWhile_cons, List.takeWhile_cons, List.dropWhile_cons, List.dropWhile_cons,
        hpq e f hef]
      split
      · exact ⟨.cons hef ih.1, ih.2⟩
      · exact ⟨.nil, .cons hef hrest⟩

theorem forall_iff_of_alike {p : Element α → Prop} {q : Element β → Prop}
    (hpq : ∀ e f, Alike e f → (q f ↔ p e)) (h : List.Forall₂ Alike es fs) :
    (∀ f ∈ fs, q f) ↔ ∀ e ∈ es, p e := by
  induction h with
  | nil => exact iff_of_true (List.forall_mem_nil _) (List.forall_mem_nil _)
  | @cons e f es fs hef hrest ih =>
      rw [List.forall_mem_cons, List.forall_mem_cons, hpq e f hef, ih]

theorem clause_alike (h : List.Forall₂ Alike es fs) (name : Bytes) :
    Clause sent name number fs ↔ Clause sent name number es := by
  obtain ⟨htake, hdrop⟩ := forall₂_dropWhile (fun e f hef => hef.passes number) h
  have hstates := (forall₂_dropWhile (fun e f hef => hef.isState) htake).2
  have hnil : fs.dropWhile (passes number) = [] ↔ es.dropWhile (passes number) = [] := by
    rw [← List.length_eq_zero_iff, ← List.length_eq_zero_iff, hdrop.length_eq]
  rw [Clause, Clause]
  by_cases hes : es.dropWhile (passes number) = []
  · rw [if_pos hes, if_pos (hnil.mpr hes)]
  · rw [if_neg hes, if_neg (fun hfs => hes (hnil.mp hfs)),
      forall_iff_of_alike (fun e f hef => by rw [hef.isSend]) htake,
      forall_iff_of_alike (fun e f hef => by rw [hef.isState]) hstates]

/-- The condition goes by the kinds and the names. -/
theorem wellCut_alike (h : List.Forall₂ Alike es fs) (sent : Bool) :
    WellCut sent fs ↔ WellCut sent es := by
  induction h generalizing sent with
  | nil => exact Iff.rfl
  | @cons e f es fs hef hrest ih =>
      cases e <;> cases f <;> cases hef
      · exact ih true
      · exact ih false
      · rw [WellCut, WellCut, ih sent]
        refine and_congr_left fun _ => forall₂_congr fun number _ => ?_
        exact clause_alike hrest _
      · exact ih sent

end

theorem traceable_positions (es : List (Element α)) (i : Nat) : Traceable (positions i es) ∧
    ∀ a ∈ (positions i es).flatMap stateData, i ≤ a := by
  induction es generalizing i with
  | nil => exact ⟨⟨.nil, List.forall_mem_nil _⟩, List.forall_mem_nil _⟩
  | cons e es ih =>
      obtain ⟨⟨hnodup, hne⟩, hle⟩ := ih (i + 1)
      have hle' : ∀ a ∈ (positions (i + 1) es).flatMap stateData, i ≤ a := fun a ha =>
        Nat.le_of_succ_le (hle a ha)
      cases e with
      | send data =>
          exact ⟨⟨hnodup, List.forall_mem_cons.mpr ⟨by rintro ⟨⟩, hne⟩⟩, hle'⟩
      | read name data =>
          exact ⟨⟨hnodup, List.forall_mem_cons.mpr ⟨by rintro ⟨⟩, hne⟩⟩, hle'⟩
      | monitor name data =>
          exact ⟨⟨hnodup, List.forall_mem_cons.mpr ⟨by rintro ⟨⟩, hne⟩⟩, hle'⟩
      | state name data =>
          refine ⟨⟨List.nodup_cons.mpr ⟨fun hmem => ?_, hnodup⟩, ?_⟩, ?_⟩
          · exact Nat.not_succ_le_self i (hle i hmem)
          · exact List.forall_mem_cons.mpr ⟨fun _ => List.cons_ne_nil _ _, hne⟩
          · exact List.forall_mem_cons.mpr ⟨Nat.le_refl i, hle'⟩

end

/-! ## The analysis of a log -/

section

variable {α : Type}

theorem parse_send (data : List α) (es : List (Element α)) :
    (XMLTestcase.parse (.send data :: es)).map sentFaults = some (written true none es) := by
  have hopen : (XMLTestcase.startElement {} (.send data) : Option (XMLTestcase α)) =
      some (opened [] ⟨.sentFrame, data, []⟩ none) := rfl
  rw [XMLTestcase.parse, List.foldlM_cons, hopen, Option.bind_eq_bind, Option.bind_some,
    foldlM_opened]
  rfl

end

/-- The faults of a log that begins with a send are attributed exactly if its states are
cut by reads and by other states as the condition says. -/
theorem fault_attribution_iff (data : Bytes) (es : List (Element UInt8)) :
    Attributed (.send data :: es) ↔ WellCut true es := by
  have hpos : positions 0 (.send data :: es) = .send [0] :: positions 1 es := rfl
  have halike := wellCut_alike (alike_positions es 1) true
  rw [Attributed, hpos, parse_send, parse_send, Option.some.injEq, Option.some.injEq]
  constructor
  · rintro ⟨-, hindexed⟩
    exact halike.mp (wellCut_of_eq (traceable_positions es 1).1 hindexed)
  · intro h
    exact ⟨written_eq_due h, written_eq_due (halike.mpr h)⟩

/-- A log that ends behind its only anomaly. -/
def unanswered : List (Element UInt8) :=
  [.send (ascii "a"), .state (ascii "Anomaly-1") (ascii "a")]

/-- The fault is lost. -/
theorem unanswered_lost : (XMLTestcase.parse unanswered).map sentFaults = some [[]] ∧
    sentRuns unanswered = [[⟨ascii "a", some (ascii "1")⟩]] ∧ ¬ Attributed unanswered := by
  have hparse : (XMLTestcase.parse unanswered).map sentFaults = some [[]] := by decide
  have hruns : sentRuns unanswered = [[⟨ascii "a", some (ascii "1")⟩]] := by decide
  refine ⟨hparse, hruns, fun h => ?_⟩
  have heq := h.1
  rw [hparse, hruns] at heq
  cases heq

end Stress.OutputAnalyzer

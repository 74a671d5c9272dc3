import Stress.Campaign

/-!
# What a send puts on the wire

The denotation of a tree of data is the text the grammar describes once every
alternation has selected one of its alternatives.  `send_denotes` says that a
send hands exactly the denotation of its data to the socket, as long as that is
no longer than an `int` can count.

`RepeatAction` reads its count into an `int`, and so cuts a larger one to
`INT_MAX`.  `den` takes the reading of the counts as a parameter: with the cut
counts it is what the code sends for every tree (`eval_data`), and with the
counts of the grammar it is the denotation.
-/

namespace Stress

/-! ## Denotations -/

/-- The text between the escaped quotes of a `charval`. -/
def charvalText (name : Bytes) : Bytes := (name.drop 2).take (name.length - 4)

/-- The bytes that pairs of hexadecimal digits stand for. -/
def hexText : Bytes → Bytes
  | c :: d :: s => (16 * (hexDigit? c).getD 0 + (hexDigit? d).getD 0).toUInt8 :: hexText s
  | _ => []

/-- The denotation of a leaf. -/
def denLeaf : LeafKind → Bytes → Bytes
  | .stringLeaf, name => charvalText name
  | .hexLeaf, name => hexText (name.drop 2)
  | .decLeaf, name => showNat (readNat (name.drop 2))
  | .binLeaf, _ => []
  | .commandComposite, _ => []

mutual

/-- The denotation of a tree for the alternatives `sel`, with the counts of the
repetitions read by `count`. -/
def den (count : Bytes → Nat) (sel : Nat → Nat) : Composite → Bytes
  | .leaf kind _ name => denLeaf kind name
  | .node .composite _ _ sons => (denSons count sel sons).flatten
  | .node .orComposite id _ sons => (denSons count sel sons).getD (sel id) []
  | .node .repeatComposite _ name sons =>
      (List.replicate (count name) (denSons count sel sons).flatten).flatten

/-- The denotations of the sons of a node. -/
def denSons (count : Bytes → Nat) (sel : Nat → Nat) : List Composite → List Bytes
  | [] => []
  | c :: cs => den count sel c :: denSons count sel cs

end

/-- The count of a repetition: the number its token starts with, and `0` for a
token that starts with `*`. -/
def leadingCount (name : Bytes) : Nat := readNat name

/-- The count as `RepeatAction` reads it. -/
def readCount (name : Bytes) : Nat := (extractInt name).toNat

/-- The trees that data is made of. -/
inductive IsData : Composite → Prop where
  | charval {id : Nat} (text : Bytes) : 34 ∉ text →
      IsData (.leaf .stringLeaf id ([92, 34] ++ text ++ [92, 34]))
  | hexval {id : Nat} (digits : Bytes) : (∀ d ∈ digits, isHexDigit d = true) →
      digits.length % 2 = 0 → IsData (.leaf .hexLeaf id ([37, 120] ++ digits))
  | decval {id : Nat} (digits : Bytes) : (∀ d ∈ digits, isDigit d = true) →
      (readNat digits : Int) ≤ intMax → IsData (.leaf .decLeaf id ([37, 100] ++ digits))
  | composite {id : Nat} {name : Bytes} {sons : List Composite} : (∀ c ∈ sons, IsData c) →
      IsData (.node .composite id name sons)
  | orComposite {id : Nat} {name : Bytes} {sons : List Composite} : (∀ c ∈ sons, IsData c) →
      IsData (.node .orComposite id name sons)
  | repeatComposite {id : Nat} {name : Bytes} {sons : List Composite} :
      (∀ c ∈ name, isDigit c = true ∨ c = 42) → (∀ c ∈ sons, IsData c) →
      IsData (.node .repeatComposite id name sons)

theorem denSons_eq (count : Bytes → Nat) (sel : Nat → Nat) (cs : List Composite) :
    denSons count sel cs = cs.map (den count sel) := by
  induction cs with
  | nil => rw [denSons]; rfl
  | cons c cs ih => rw [denSons, ih]; rfl

/-! ## Leaves -/

theorem hexBytes_eq_hexText : ∀ s : Bytes, (∀ d ∈ s, isHexDigit d = true) →
    s.length % 2 = 0 → hexBytes s = hexText s
  | [], _, _ => rfl
  | [_], _, h => by simp at h
  | c :: d :: s, hs, h => by
      have heven : s.length % 2 = 0 := by
        rw [List.length_cons, List.length_cons] at h
        omega
      have hrest := hexBytes_eq_hexText s (fun e he => hs e (by simp [he])) heven
      rw [hexBytes, hexText, hrest, hexByte_digits (hs c (by simp)) (hs d (by simp))]

/-- A quoted text without quotes in it is unquoted to itself. -/
theorem setAbnfString_quoted {text : Bytes} (h : 34 ∉ text) (d : StateData) :
    (d.setAbnfString ([92, 34] ++ text ++ [92, 34])).stringValue = text := by
  have hfind : find [92, 34] text = none := find_eq_none_of_mem (by simp) h
  have hquote : ([92, 34] : Bytes).isPrefixOf ([92, 34] ++ text ++ [92, 34]) = true := by
    simp [List.isPrefixOf]
  have hdrop : ([92, 34] ++ text ++ [92, 34] : Bytes).drop 2 = text ++ [92, 34] := by simp
  have hsuffix : ([92, 34] : Bytes).isSuffixOf (text ++ [92, 34]) = true := by
    rw [List.isSuffixOf_iff_suffix]
    exact List.suffix_append _ _
  unfold StateData.setAbnfString
  simp only [hquote, if_true, hdrop, hsuffix]
  rw [StateData.setStringValue, StateData.unescape]
  simp only [List.length_append, List.length_cons, List.length_nil, Nat.zero_add,
    Nat.reduceAdd, Nat.add_sub_cancel, List.take_left']
  exact eraseEach_of_find_none hfind

/-- The digits behind `%x` are cut in pairs. -/
theorem setAbnfHex_raw {digits : Bytes} (h : ∀ d ∈ digits, isHexDigit d = true) (d : StateData) :
    (d.setAbnfHex ([37, 120] ++ digits)).raw = hexBytes digits := by
  have hfind : find [37, 120] ([37, 120] ++ digits) = some 0 := by
    simp [find, List.isPrefixOf]
  have hdrop : ([37, 120] ++ digits : Bytes).drop 2 = digits := rfl
  have hhead : digits.head? ≠ some 37 := by
    intro hh
    exact absurd (h 37 (List.mem_of_mem_head? hh)) (by decide)
  unfold StateData.setAbnfHex
  rw [if_pos hfind, hdrop, StateData.setStringValue, if_neg hhead]
  rfl

theorem setAbnfHex_digits {digits : Bytes} (h : ∀ d ∈ digits, isHexDigit d = true)
    (heven : digits.length % 2 = 0) (d : StateData) :
    (d.setAbnfHex ([37, 120] ++ digits)).raw = hexText digits := by
  rw [setAbnfHex_raw h, hexBytes_eq_hexText digits h heven]

theorem setAbnfInt_digits {digits : Bytes} (h : ∀ d ∈ digits, isDigit d = true)
    (hmax : (readNat digits : Int) ≤ intMax) (d : StateData) :
    (d.setAbnfInt ([37, 100] ++ digits)).intValue = readNat digits := by
  have hfind : find [37, 100] ([37, 100] ++ digits) = some 0 := by
    simp [find, List.isPrefixOf]
  have hdrop : ([37, 100] ++ digits : Bytes).drop 2 = digits := rfl
  unfold StateData.setAbnfInt
  rw [if_pos hfind, hdrop]
  exact atoi_digits h hmax

/-- A leaf sends its denotation. -/
theorem leafState_denotes {kind : LeafKind} {id : Nat} {name : Bytes}
    (h : IsData (.leaf kind id name)) :
    (leafState kind id name).getStringToSend = denLeaf kind name := by
  rw [State.getStringToSend_eq]
  cases h with
  | charval text htext =>
      change (StateData.setAbnfString _ _).stringValue = _
      rw [setAbnfString_quoted htext]
      simp [denLeaf, charvalText]
  | hexval digits hdigits heven =>
      change (StateData.setAbnfHex _ _).raw = _
      rw [setAbnfHex_digits hdigits heven]
      rfl
  | decval digits hdigits hmax =>
      change showInt (StateData.setAbnfInt _ _).intValue = _
      rw [setAbnfInt_digits hdigits hmax, showInt_natCast]
      rfl

/-- A leaf never fails and no variable points to its state. -/
theorem leafState_quiet (kind : LeafKind) (id : Nat) (name : Bytes) :
    (leafState kind id name).isFailValue = false ∧ (leafState kind id name).boundNames = [] := by
  rw [State.boundNames_eq]
  cases kind <;> exact ⟨rfl, rfl⟩

/-! ## Trees -/

/-- A result that sends `b`, does not fail and is bound to no variable. -/
structure Sends (b : Bytes) (s : State) : Prop where
  wire : s.getStringToSend = b
  ok : s.isFailValue = false
  unbound : s.boundNames = []

theorem flatMap_of_forall₂ {bs : List Bytes} {ss : List State} (h : List.Forall₂ Sends bs ss) :
    ss.flatMap State.getStringToSend = bs.flatten ∧ ∀ s ∈ ss, s.isFailValue = false ∧
      s.boundNames = [] := by
  induction h with
  | nil => exact ⟨rfl, fun s hs => by cases hs⟩
  | cons hs _ ih =>
      refine ⟨by rw [List.flatMap_cons, List.flatten_cons, hs.wire, ih.1], fun t ht => ?_⟩
      cases List.mem_cons.mp ht with
      | inl he => exact he ▸ ⟨hs.ok, hs.unbound⟩
      | inr hm => exact ih.2 t hm

/-- The results of the sons under a state without bindings of its own. -/
theorem sends_push {bs : List Bytes} {ss : List State} (h : List.Forall₂ Sends bs ss) {s : State}
    (hcls : s.data.cls = .ok) (hok : s.isFailValue = false) (hb : s.boundNames = [])
    (hsons : s.sons = []) : Sends bs.flatten (s.push ss) := by
  obtain ⟨hwire, hall⟩ := flatMap_of_forall₂ h
  refine ⟨?_, hok, ?_⟩
  · rw [State.getStringToSend_eq, State.data_push, hcls, State.sons_push, hsons]
    exact hwire
  · rw [State.boundNames_push, hb, List.nil_append, List.flatMap_eq_nil_iff]
    exact fun t ht => (hall t ht).2

theorem sends_replicate {b : Bytes} {s : State} (h : Sends b s) (n : Nat) :
    List.Forall₂ Sends (List.replicate n b) (List.replicate n s) := by
  induction n with
  | zero => exact .nil
  | succ n ih => exact .cons h ih

theorem selectResult_denotes {bs : List Bytes} {ss : List State} (h : List.Forall₂ Sends bs ss)
    {value : Nat} (hvalue : value < bs.length) (e : Env) :
    ∃ s, selectResult value ss e = .ok (s, e) ∧ Sends (bs.getD value []) s := by
  have hlt : value < ss.length := h.length_eq ▸ hvalue
  obtain ⟨hwire, _, hunbound⟩ := h.get hvalue hlt
  have hquiet := (flatMap_of_forall₂ h).2
  rw [selectResult_eq (List.getElem?_eq_getElem hlt) (fun t ht => (hquiet t ht).2)]
  refine ⟨_, rfl, ?_, ?_, ?_⟩
  · rw [State.getStringToSend_setName, State.setFaultValue, State.getStringToSend_setStateValue,
      List.getD_eq_getElem _ _ hvalue]
    exact hwire
  · rw [State.isFailValue, State.stateValue_setName, State.setFaultValue, State.setStateValue_data]
    rfl
  · rw [State.boundNames_setName, State.setFaultValue, State.boundNames_setStateValue]
    exact hunbound

section Trees

variable {P : Platform} {sel : Nat → Nat}

/-- A tree is evaluated without effects, to a state that sends `b`. -/
def EvaluatesTo (P : Platform) (sel : Nat → Nat) (e : Env) (c : Composite) (b : Bytes) : Prop :=
  ∃ s, eval P sel c e = .ok (s, e) ∧ Sends b s

theorem evalSons_sends {e : Env} {cs : List Composite} {bs : List Bytes}
    (h : List.Forall₂ (EvaluatesTo P sel e) cs bs) :
    ∃ ss, evalSons P sel cs e = .ok (ss, e) ∧ List.Forall₂ Sends bs ss := by
  induction h with
  | nil =>
      rw [evalSons]
      exact ⟨[], rfl, .nil⟩
  | cons hc _ ih =>
      obtain ⟨s, hs, hsends⟩ := hc
      obtain ⟨ss, hss, hall⟩ := ih
      refine ⟨s :: ss, ?_, .cons hsends hall⟩
      rw [evalSons, Comp.bind_ok]
      exact ⟨s, e, hs, Comp.bind_ok.mpr ⟨ss, e, hss, rfl⟩⟩

theorem evalSonsReturn_sends {e : Env} {cs : List Composite} {bs : List Bytes}
    (h : List.Forall₂ (EvaluatesTo P sel e) cs bs) :
    ∃ ss, evalSonsReturn P sel cs e = .ok (ss, e) ∧ List.Forall₂ Sends bs ss := by
  induction h with
  | nil =>
      rw [evalSonsReturn]
      exact ⟨[], rfl, .nil⟩
  | cons hc _ ih =>
      obtain ⟨s, hs, hsends⟩ := hc
      obtain ⟨ss, hss, hall⟩ := ih
      refine ⟨s :: ss, ?_, .cons hsends hall⟩
      rw [evalSonsReturn, Comp.bind_ok]
      refine ⟨s, e, hs, ?_⟩
      rw [hsends.ok]
      exact Comp.bind_ok.mpr ⟨ss, e, hss, rfl⟩

/-- A tree is evaluated without effects, to a state that sends its denotation. -/
def Denotes (P : Platform) (sel : Nat → Nat) (e : Env) (c : Composite) : Prop :=
  ∃ s, eval P sel c e = .ok (s, e) ∧ Sends (den readCount sel c) s

theorem forall₂_denotes {e : Env} {cs : List Composite} (h : ∀ c ∈ cs, Denotes P sel e c) :
    List.Forall₂ (EvaluatesTo P sel e) cs (denSons readCount sel cs) := by
  rw [denSons_eq, List.forall₂_map_right_iff, List.forall₂_same]
  exact h

/-- A sequence sends what its sons send one after the other. -/
theorem returnAction_sends {e : Env} {cs : List Composite} {bs : List Bytes}
    (h : List.Forall₂ (EvaluatesTo P sel e) cs bs) (hne : cs ≠ []) (id : Nat) (name : Bytes) :
    ∃ s, returnAction id name (evalSonsReturn P sel cs) e = .ok (s, e) ∧ Sends bs.flatten s := by
  obtain ⟨ss, hss, hall⟩ := evalSonsReturn_sends h
  have hssne : ss ≠ [] := by
    rintro rfl
    cases hall
    cases h
    exact hne rfl
  have hlast := List.getLast?_eq_getLast_of_ne_nil hssne
  have hok := ((flatMap_of_forall₂ hall).2 _ (List.getLast_mem hssne)).1
  rw [returnAction_eq hss hlast, hok]
  refine ⟨_, rfl, sends_push hall rfl rfl ?_ rfl⟩
  rw [State.boundNames_eq]
  rfl

/-- Data is evaluated without effects, to a state that sends its denotation. -/
theorem eval_data (c : Composite) (hc : IsData c)
    (hsons : ∀ d ∈ c.nodes, d.isLeaf = false → d.sons ≠ [])
    (hsel : ∀ d ∈ c.nodes, d.isOr = true → sel d.id < d.sons.length) (e : Env) :
    Denotes P sel e c := by
  induction c using Composite.induction with
  | h c ih =>
      have hself := c.mem_nodes_self
      have hson : (∀ d ∈ c.sons, IsData d) → ∀ d ∈ c.sons, Denotes P sel e d := by
        intro hdata d hd
        have hsub : ∀ d' ∈ d.nodes, d' ∈ c.nodes :=
          fun d' hd' => Composite.nodes_trans (Composite.son_mem_nodes hd) hd'
        exact ih d hd (hdata d hd) (fun d' hd' => hsons d' (hsub d' hd'))
          fun d' hd' => hsel d' (hsub d' hd')
      cases c with
      | leaf kind id name =>
          obtain ⟨hok, hunbound⟩ := leafState_quiet kind id name
          refine ⟨leafState kind id name, ?_, ?_⟩
          · rw [eval]
            rfl
          · rw [den]
            exact ⟨leafState_denotes hc, hok, hunbound⟩
      | node kind id name sons =>
          have hne : sons ≠ [] := hsons _ hself rfl
          rw [Composite.sons] at hson
          cases hc with
          | composite hdata =>
              have haction : strategyOf .composite sons = .returnAction := by
                unfold strategyOf factoryAction
                simp only
                split
                · cases hdata _ List.mem_cons_self
                · rfl
              obtain ⟨s, hs, hsends⟩ :=
                returnAction_sends (forall₂_denotes (hson hdata)) hne id name
              refine ⟨s, ?_, ?_⟩
              · rw [eval, haction]
                exact hs
              · rw [den]
                exact hsends
          | orComposite hdata =>
              obtain ⟨ss, hss, hall⟩ := evalSons_sends (forall₂_denotes (hson hdata))
              obtain ⟨s, hs, hsends⟩ := selectResult_denotes hall
                (by rw [denSons_eq, List.length_map]; exact hsel _ hself rfl) e
              refine ⟨s, ?_, ?_⟩
              · rw [eval, strategyOf, runAction, injectAction, Comp.bind_eq, hss]
                change liftEnv (selectResult (sel id) ss) e = _
                rw [liftEnv_env]
                exact hs
              · rw [den]
                exact hsends
          | repeatComposite hname hdata =>
              obtain ⟨s, hs, hsends⟩ :=
                returnAction_sends (forall₂_denotes (hson hdata)) hne id name
              have hall := sends_replicate hsends (readCount name)
              refine ⟨((State.okState id).update (StateData.setStringValue name)).push
                (List.replicate (readCount name) s), ?_, ?_⟩
              · rw [eval, strategyOf, runAction, repeatAction, Comp.bind_eq, runTimes_eq hs]
                rfl
              · rw [den]
                refine sends_push hall rfl rfl ?_ rfl
                rw [State.boundNames_eq]
                rfl

end Trees

/-! ## Counts -/

theorem readCount_eq {name : Bytes} (h : ∀ c ∈ name, isDigit c = true ∨ c = 42) :
    (readCount name : Int) = min (leadingCount name : Int) intMax := by
  rw [readCount, extractInt_natCast h, leadingCount, Int.toNat_of_nonneg]
  rw [intMax]
  omega

theorem length_le_flatten {b : Bytes} {bs : List Bytes} (h : b ∈ bs) :
    b.length ≤ bs.flatten.length := by
  rw [List.length_flatten]
  exact List.single_le_sum (fun _ _ => Nat.zero_le _) _ (List.mem_map_of_mem h)

/-- Copies that an `int` counts are as many as the token says. -/
theorem replicate_readCount {name b : Bytes} (hname : ∀ c ∈ name, isDigit c = true ∨ c = 42)
    (h : ((List.replicate (leadingCount name) b).flatten.length : Int) ≤ intMax) :
    (List.replicate (readCount name) b).flatten =
      (List.replicate (leadingCount name) b).flatten := by
  cases b with
  | nil => rw [List.flatten_replicate_nil, List.flatten_replicate_nil]
  | cons c b =>
      have hcount : readCount name = leadingCount name := by
        have heq := readCount_eq hname
        have hle : leadingCount name ≤
            (List.replicate (leadingCount name) (c :: b)).flatten.length := by
          rw [List.length_flatten, List.map_replicate, List.sum_replicate_nat, List.length_cons]
          exact Nat.le_mul_of_pos_right _ (Nat.succ_pos _)
        omega
      rw [hcount]

/-- No count is cut inside a text that an `int` can count. -/
theorem den_readCount {sel : Nat → Nat} (c : Composite) (hc : IsData c)
    (h : ((den leadingCount sel c).length : Int) ≤ intMax) :
    den readCount sel c = den leadingCount sel c := by
  induction c using Composite.induction with
  | h c ih =>
      have hsons : (∀ d ∈ c.sons, IsData d) →
          ((denSons leadingCount sel c.sons).flatten.length : Int) ≤ intMax →
          denSons readCount sel c.sons = denSons leadingCount sel c.sons := by
        intro hdata hle
        rw [denSons_eq, denSons_eq] at *
        refine List.map_congr_left fun d hd => ih d hd (hdata d hd) ?_
        have := length_le_flatten (List.mem_map_of_mem (f := den leadingCount sel) hd)
        omega
      cases hc with
      | charval _ _ => rw [den, den]
      | hexval _ _ _ => rw [den, den]
      | decval _ _ _ => rw [den, den]
      | composite hdata =>
          rw [den] at h
          rw [den, den]
          exact congrArg List.flatten (hsons hdata h)
      | @orComposite id _ sons hdata =>
          rw [den, denSons_eq, List.getD_eq_getElem?_getD, List.getElem?_map] at h
          rw [den, den, denSons_eq, denSons_eq, List.getD_eq_getElem?_getD,
            List.getD_eq_getElem?_getD, List.getElem?_map, List.getElem?_map]
          cases hd : sons[sel id]? with
          | none => rfl
          | some d =>
              rw [hd] at h
              have hmem := List.mem_of_getElem? hd
              exact ih d hmem (hdata d hmem) h
      | @repeatComposite _ name sons hname hdata =>
          rw [den] at h
          rw [den, den]
          by_cases hzero : leadingCount name = 0
          · have heq := readCount_eq hname
            have : readCount name = 0 := by
              rw [hzero] at heq
              rw [intMax] at heq
              omega
            rw [this, hzero]
            rfl
          · have hle := length_le_flatten (b := (denSons leadingCount sel sons).flatten)
              (List.mem_replicate.mpr ⟨hzero, rfl⟩)
            have hbody : denSons readCount sel sons = denSons leadingCount sel sons :=
              hsons hdata (by rw [Composite.sons]; omega)
            rw [hbody]
            exact replicate_readCount hname h

theorem denSons_readCount {sel : Nat → Nat} {data : List Composite} (hdata : ∀ c ∈ data, IsData c)
    (h : ((denSons leadingCount sel data).flatten.length : Int) ≤ intMax) :
    denSons readCount sel data = denSons leadingCount sel data := by
  rw [denSons_eq] at h
  rw [denSons_eq, denSons_eq]
  refine List.map_congr_left fun d hd => den_readCount d (hdata d hd) ?_
  have := length_le_flatten (List.mem_map_of_mem (f := den leadingCount sel) hd)
  omega

/-! ## Sends -/

/-- A command node is a leaf in front of the data. -/
theorem command_of_sendAction {cmd : Composite} {data : List Composite} {socket : Transport}
    (h : factoryAction (cmd :: data) = .sendAction socket) :
    ∃ id name, cmd = .leaf .commandComposite id name := by
  unfold factoryAction at h
  split at h
  · next id name _ heq =>
      cases heq
      exact ⟨id, name, rfl⟩
  · cases h

/-- A send of data hands over the text with the counts it has read, unless that
is too long for its loop. -/
theorem eval_send {P : Platform} {sel : Nat → Nat} (id : Nat) (name : Bytes) {cmd : Composite}
    {data : List Composite} {socket : Transport} {e : Env}
    (h : factoryAction (cmd :: data) = .sendAction socket) (hdata : ∀ c ∈ data, Denotes P sel e c) :
    let b := (denSons readCount sel data).flatten
    ∃ result, dataToSend result = b ∧
      eval P sel (.node .composite id name (cmd :: data)) e =
        if intMax < b.length then .error .intOverflow
        else .ok (sentState id b (e.sends.headD b.length) result, e.sent b) := by
  obtain ⟨i, n, rfl⟩ := command_of_sendAction h
  obtain ⟨ss, hss, hall⟩ := evalSons_sends (forall₂_denotes hdata)
  have hbytes : dataToSend (leafState .commandComposite i n :: ss) =
      (denSons readCount sel data).flatten := (flatMap_of_forall₂ hall).1
  have hsons : evalSons P sel (.leaf .commandComposite i n :: data) e =
      .ok (leafState .commandComposite i n :: ss, e) := by
    rw [evalSons, eval, Comp.bind_eq, Comp.pure_eq]
    simp only
    rw [Comp.bind_eq, hss]
    rfl
  refine ⟨_, hbytes, ?_⟩
  rw [eval, strategyOf, h, runAction, sendAction, Comp.bind_eq, hsons]
  simp only
  rw [hbytes]
  split
  · rfl
  · rfl

namespace World

/-- The run hands `b`, and nothing else, to the socket. -/
def Hands (P : Platform) (c : Composite) (b : Bytes) (w : World) : Prop :=
  ∃ s w' n, runTest P c w = .ok (s, w') ∧ w'.env.trace = w.env.trace ++ [.send b n]

section Send

variable {P : Platform} {t : ParsedTree} {extra : Nat} {w : World} {id : Nat} {name : Bytes}
  {cmd : Composite} {data : List Composite} {socket : Transport}

/-- Data below a valid world is evaluated to its denotation. -/
theorem denotes_of_mem (hw : w.Valid t extra) {c : Composite} (hc : c ∈ t.root.nodes)
    (hdata : IsData c) : Denotes P w.selected w.env c := by
  obtain ⟨slots, hr⟩ := hw
  refine eval_data c hdata (fun d hd => t.sons_ne_nil d (Composite.nodes_trans hc hd)) ?_ w.env
  exact fun d hd hor => hr.selected_lt
    (List.mem_filter.mpr ⟨Composite.nodes_trans hc hd, hor⟩)

/-- What the run of a send node hands over. -/
theorem hands_iff (hw : w.Valid t extra)
    (hc : .node .composite id name (cmd :: data) ∈ t.root.nodes)
    (hsend : factoryAction (cmd :: data) = .sendAction socket)
    (hdata : ∀ c ∈ data, IsData c) (b : Bytes) :
    w.Hands P (.node .composite id name (cmd :: data)) b ↔
      (b.length : Int) ≤ intMax ∧ b = (denSons readCount w.selected data).flatten := by
  have hden : ∀ c ∈ data, Denotes P w.selected w.env c := fun c hmem =>
    denotes_of_mem hw (Composite.nodes_trans hc
      (Composite.son_mem_nodes (List.mem_cons_of_mem _ hmem))) (hdata c hmem)
  obtain ⟨result, _, heval⟩ := eval_send id name hsend hden
  have hagree := runTest_agree (P := P) hw hc
  rw [heval] at hagree
  constructor
  · rintro ⟨s, w', n, hrun, htrace⟩
    rw [hrun] at hagree
    split at hagree
    · exact hagree.elim
    · next hle =>
        have henv := hagree.2.env
        rw [henv, Env.sent, List.append_cancel_left_eq] at htrace
        cases htrace
        exact ⟨by omega, rfl⟩
  · rintro ⟨hle, rfl⟩
    rw [if_neg (by omega)] at hagree
    cases hrun : runTest P (.node .composite id name (cmd :: data)) w with
    | error x =>
        rw [hrun] at hagree
        exact hagree.elim
    | ok p =>
        obtain ⟨s, w'⟩ := p
        rw [hrun] at hagree
        have hn : ∃ n, w'.env.trace =
            w.env.trace ++ [.send (denSons readCount w.selected data).flatten n] :=
          ⟨_, by rw [hagree.2.env]; rfl⟩
        obtain ⟨n, hn⟩ := hn
        exact ⟨s, w', n, hrun, hn⟩

/-- A send hands exactly the denotation of its data to the socket, for every
selection of alternatives, if and only if an `int` can count it. -/
theorem send_denotes (hw : w.Valid t extra)
    (hc : .node .composite id name (cmd :: data) ∈ t.root.nodes)
    (hsend : factoryAction (cmd :: data) = .sendAction socket)
    (hdata : ∀ c ∈ data, IsData c) :
    w.Hands P (.node .composite id name (cmd :: data))
        (denSons leadingCount w.selected data).flatten ↔
      ((denSons leadingCount w.selected data).flatten.length : Int) ≤ intMax := by
  rw [hands_iff hw hc hsend hdata]
  refine and_iff_left_of_imp fun hle => ?_
  rw [denSons_readCount hdata hle]

end Send

/-- The data of `<%UDP_send%> 2("a" / "b") %x2d %d7`. -/
def shortData : List Composite :=
  [.node .repeatComposite 2 (ascii "2")
    [.node .composite 3 (ascii "()")
      [.node .orComposite 4 (ascii "/")
        [.leaf .stringLeaf 5 (ascii "\\\"a\\\""), .leaf .stringLeaf 6 (ascii "\\\"b\\\"")]]],
   .leaf .hexLeaf 7 (ascii "%x2d"), .leaf .decLeaf 8 (ascii "%d7")]

/-- A send of `shortData`. -/
def shortSend : ParsedTree where
  root := .node .composite 0 (ascii "r")
    (.leaf .commandComposite 1 (ascii "<%UDP_send%>") :: shortData)
  nodup := by decide
  sons_ne_nil := by decide
  alternatives := by decide
  size := by decide

theorem shortData_isData : ∀ c ∈ shortData, IsData c := by
  have hor : ∀ c ∈ [Composite.leaf .stringLeaf 5 (ascii "\\\"a\\\""),
      .leaf .stringLeaf 6 (ascii "\\\"b\\\"")], IsData c := by
    rw [List.forall_mem_cons, List.forall_mem_singleton]
    exact ⟨.charval (ascii "a") (by decide), .charval (ascii "b") (by decide)⟩
  rw [shortData, List.forall_mem_cons, List.forall_mem_cons, List.forall_mem_singleton]
  refine ⟨.repeatComposite (List.forall_mem_singleton.mpr (.inl rfl)) ?_,
    .hexval (ascii "2d") (List.all_eq_true.mp rfl) rfl,
    .decval (ascii "7") (List.all_eq_true.mp rfl) (by decide)⟩
  rw [List.forall_mem_singleton]
  refine .composite ?_
  rw [List.forall_mem_singleton]
  exact .orComposite hor

theorem send_denotes_shortSend : fresh.Hands ⟨fun b => b, 0⟩ shortSend.root (ascii "aa-7") := by
  have hden : (denSons leadingCount fresh.selected shortData).flatten = ascii "aa-7" := by decide
  rw [← hden]
  have hsend : factoryAction shortSend.root.sons = .sendAction .udp := by decide
  refine (send_denotes (fresh_valid shortSend) (Composite.mem_nodes_self _) hsend
    shortData_isData).mpr ?_
  rw [hden]
  decide

/-- A send of `2147483648"a"`. -/
def longSend : ParsedTree where
  root := .node .composite 0 (ascii "r")
    [.leaf .commandComposite 1 (ascii "<%UDP_send%>"),
     .node .repeatComposite 2 (ascii "2147483648") [.leaf .stringLeaf 3 (ascii "\\\"a\\\"")]]
  nodup := by decide
  sons_ne_nil := by decide
  alternatives := by decide
  size := by decide

/-- The count is cut to `INT_MAX`, so one `a` is missing. -/
theorem send_cuts_a_count :
    ¬ ∀ (P : Platform) (t : ParsedTree) (extra : Nat) (w : World) (id : Nat) (name : Bytes)
      (cmd : Composite) (data : List Composite) (socket : Transport), w.Valid t extra →
        .node .composite id name (cmd :: data) ∈ t.root.nodes →
        factoryAction (cmd :: data) = .sendAction socket → (∀ c ∈ data, IsData c) →
          w.Hands P (.node .composite id name (cmd :: data))
            (denSons leadingCount w.selected data).flatten := by
  intro hall
  have hdata : ∀ c ∈ [Composite.node .repeatComposite 2 (ascii "2147483648")
      [.leaf .stringLeaf 3 (ascii "\\\"a\\\"")]], IsData c := by
    rw [List.forall_mem_singleton]
    have hdigits : ∀ c ∈ ascii "2147483648", isDigit c = true := List.all_eq_true.mp rfl
    refine .repeatComposite (fun c hc => .inl (hdigits c hc)) ?_
    rw [List.forall_mem_singleton]
    exact .charval (ascii "a") (by decide)
  have hsend : factoryAction longSend.root.sons = .sendAction .udp := by decide
  have hhands := hall ⟨fun b => b, 0⟩ longSend 0 fresh 0 (ascii "r") _ _ .udp
    (fresh_valid longSend) (Composite.mem_nodes_self _) hsend hdata
  obtain ⟨hle, _⟩ := (hands_iff (fresh_valid longSend) (Composite.mem_nodes_self _) hsend
    hdata _).mp hhands
  have hcount : leadingCount (ascii "2147483648") = 2147483648 := by decide
  have hleaf : denSons leadingCount fresh.selected [.leaf .stringLeaf 3 (ascii "\\\"a\\\"")] =
      [[97]] := by decide
  rw [denSons, denSons, den, hcount, hleaf, List.flatten_singleton] at hle
  simp only [List.flatten_singleton, List.length_flatten, List.map_replicate,
    List.sum_replicate_nat, List.length_singleton, intMax] at hle
  omega

end World

end Stress

import Stress.Campaign

/-!
# Steps of a run

A successful run of a node taken apart: for each action, which runs of its sons
it made and how it put their results together.  A read makes a number of rounds
that are rejected and a last one.

`RunsSon` says that the run of a node, for a fixed selection, runs a son from
some environment.  `Visits` follows it down the tree, to every node that is run.
-/

namespace Stress

/-! ## Rounds of a read -/

/-- The state for what a read has delivered. -/
def frameOf (P : Platform) (id : Nat) (o : ReadOutcome) : State :=
  if 0 < o.n then
    (State.readPacketState id).update fun d =>
      { d with name := "Data received" }.setRawValue P.uninit o.data o.n.toNat
  else ((State.readPacketState id).setName "No Packet Received").setFailValue

/-- The environment after `delete` of the last frame. -/
def Env.dropFrame (e : Env) : Env :=
  match e.lastFrame with
  | some last => e.delete last
  | none => e

/-- The head of a turn of the loop: the next packet becomes the last frame. -/
def roundStart (P : Platform) (id : Nat) : EnvComp ReadOutcome := do
  let o ← socketRead
  let res ← receive P id o
  replaceLastFrame res
  return o

/-- A turn of the loop. -/
def readRound (P : Platform) (id : Nat) (runSons : EnvComp (List State)) :
    EnvComp (ReadOutcome × List State × State) := do
  let o ← roundStart P id
  let result ← runSons
  let res ← pushLastFrame result
  return (o, result, res)

/-- Whether the loop goes on after a turn. -/
def goesOn (o : ReadOutcome) (result : List State) : Bool :=
  thereIsAFail result && decide (0 ≤ o.n)

/-- A turn after which the loop goes on. -/
def Rejects (P : Platform) (id : Nat) (runSons : EnvComp (List State)) (e e' : Env) : Prop :=
  ∃ o result res, readRound P id runSons e = .ok ((o, result, res), e') ∧ goesOn o result = true

section Actions

variable {P : Platform} {id : Nat} {name : Bytes} {all brk : EnvComp (List State)} {e e' : Env}
  {s : State}

theorem readLoop_succ (P : Platform) (id : Nat) (all : EnvComp (List State)) (fuel : Nat) :
    readLoop P id all (fuel + 1) = (do
      let p ← readRound P id all
      if goesOn p.1 p.2.1 then readLoop P id all fuel else return p.2.2) := by
  rw [readLoop, readRound, roundStart]
  simp only [liftEnv_env, bind_assoc, pure_bind]
  rfl

/-! ## What the actions do -/

theorem returnAction_ok (h : returnAction id name brk e = .ok (s, e')) :
    ∃ result last, brk e = .ok (result, e') ∧ result.getLast? = some last ∧
      s = ((if last.isFailValue then State.failState id else State.okState id).update
        (StateData.setStringValue name)).push result := by
  obtain ⟨result, e₁, hbrk, h⟩ := Comp.bind_ok.mp h
  cases hlast : result.getLast? with
  | none =>
      rw [hlast] at h
      cases h
  | some last =>
      rw [hlast] at h
      obtain ⟨rfl, rfl⟩ := Comp.pure_ok.mp h
      exact ⟨result, last, hbrk, hlast, rfl⟩

theorem runTimes_succ_ok {m : EnvComp State} {n : Nat} {ss : List State}
    (h : runTimes m (n + 1) e = .ok (ss, e')) :
    ∃ s e₁ ss', m e = .ok (s, e₁) ∧ runTimes m n e₁ = .ok (ss', e') ∧ ss = s :: ss' := by
  obtain ⟨s, e₁, hs, h⟩ := Comp.bind_ok.mp h
  obtain ⟨ss', e₂, hss, h⟩ := Comp.bind_ok.mp h
  obtain ⟨rfl, rfl⟩ := Comp.pure_ok.mp h
  exact ⟨s, e₁, ss', hs, hss, rfl⟩

theorem repeatAction_ok (h : repeatAction id name brk e = .ok (s, e')) :
    ∃ results, runTimes (returnAction id name brk) (extractInt name).toNat e = .ok (results, e') ∧
      s = ((State.okState id).update (StateData.setStringValue name)).push results := by
  obtain ⟨results, e₁, hruns, h⟩ := Comp.bind_ok.mp h
  obtain ⟨rfl, rfl⟩ := Comp.pure_ok.mp h
  exact ⟨results, hruns, rfl⟩

theorem sendAction_ok (h : sendAction id all e = .ok (s, e')) :
    ∃ result e₁, all e = .ok (result, e₁) ∧
      s = sentState id (dataToSend result) (e₁.sends.headD (dataToSend result).length) result ∧
      e' = e₁.sent (dataToSend result) := by
  obtain ⟨result, e₁, hall, h⟩ := Comp.bind_ok.mp h
  refine ⟨result, e₁, hall, ?_⟩
  split at h
  · cases h
  · obtain ⟨n, e₂, hsend, h⟩ := Comp.bind_ok.mp h
    obtain ⟨rfl, rfl⟩ := Comp.pure_ok.mp h
    rw [liftEnv_env] at hsend
    cases hsend
    exact ⟨rfl, rfl⟩

theorem selectResult_ok {value : Nat} {result : List State}
    (h : selectResult value result e = .ok (s, e')) :
    ∃ r, result[value]? = some r ∧ s = r.setFaultValue.setName ("Anomaly-" ++ toString value) ∧
      e' = ((result.eraseIdx value).foldl (fun e t => e.delete t) e).refresh s := by
  unfold selectResult at h
  split at h
  · cases h
  · next r hr =>
      cases h
      exact ⟨r, hr, rfl, rfl⟩

theorem injectAction_ok {value : Nat} (h : injectAction (fun _ => pure value) all e = .ok (s, e')) :
    ∃ result e₁, all e = .ok (result, e₁) ∧ selectResult value result e₁ = .ok (s, e') := by
  obtain ⟨result, e₁, hall, hrest⟩ := Comp.bind_ok.mp h
  obtain ⟨value', e₂, hvalue, hselect⟩ := Comp.bind_ok.mp hrest
  rw [liftEnv_env] at hselect
  obtain ⟨rfl, rfl⟩ := Comp.pure_ok.mp hvalue
  exact ⟨result, e₂, hall, hselect⟩

theorem usage_ok {c : Command} {numSons : Nat} (h : c.usage numSons e = .ok ((), e')) :
    e' = e := by
  unfold Command.usage at h
  split at h
  · split at h
    · exact (Comp.pure_ok.mp h).2
    · cases h
  · exact (Comp.pure_ok.mp h).2

theorem commandActionOn_ok {c : Command} {numSons : Nat}
    (h : commandActionOn P id name numSons c all e = .ok (s, e')) :
    c.usage numSons e = .ok ((), e) ∧ ∃ result e₁, all e = .ok (result, e₁) ∧
      c.finish P id name result e₁ = .ok (s, e') := by
  obtain ⟨_, e₁, husage, hrest⟩ := Comp.bind_ok.mp h
  rw [liftEnv_env] at husage
  obtain ⟨result, e₂, hall, hfinish⟩ := Comp.bind_ok.mp hrest
  rw [liftEnv_env] at hfinish
  have he := usage_ok husage
  subst he
  exact ⟨husage, result, e₂, hall, hfinish⟩

theorem readLoop_ok {fuel : Nat} (h : readLoop P id all fuel e = .ok (s, e')) :
    ∃ e₁ o result, Relation.ReflTransGen (Rejects P id all) e e₁ ∧
      readRound P id all e₁ = .ok ((o, result, s), e') ∧ goesOn o result = false := by
  induction fuel generalizing e with
  | zero => cases h
  | succ fuel ih =>
      rw [readLoop_succ] at h
      obtain ⟨⟨o, result, res⟩, e₁, hround, h⟩ := Comp.bind_ok.mp h
      cases hgo : goesOn o result with
      | true =>
          simp only [hgo, if_true] at h
          obtain ⟨e₂, o', result', hrejects, hlast⟩ := ih h
          exact ⟨e₂, o', result', .head ⟨o, result, res, hround, hgo⟩ hrejects, hlast⟩
      | false =>
          simp only [hgo, Bool.false_eq_true, if_false] at h
          obtain ⟨rfl, rfl⟩ := Comp.pure_ok.mp h
          exact ⟨e, o, result, .refl, hround, hgo⟩

/-- A read is a number of rejected rounds and a last one. -/
theorem readAction_ok (h : readAction P id all e = .ok (s, e')) :
    ∃ e₁ o result res e₂, Relation.ReflTransGen (Rejects P id all) e e₁ ∧
      readRound P id all e₁ = .ok ((o, result, res), e₂) ∧ goesOn o result = false ∧
      s = (if res.isFailValue then res else res.setPacketValue) ∧
      e' = { e₂ with lastFrame := none } := by
  obtain ⟨fuel, e₁, hfuel, h⟩ := Comp.bind_ok.mp h
  rw [liftEnv_env] at hfuel
  cases hfuel
  obtain ⟨res, e₂, hloop, h⟩ := Comp.bind_ok.mp h
  obtain ⟨_, e₃, hclear, h⟩ := Comp.bind_ok.mp h
  rw [liftEnv_env] at hclear
  cases hclear
  obtain ⟨rfl, rfl⟩ := Comp.pure_ok.mp h
  obtain ⟨e₄, o, result, hrejects, hround, hgo⟩ := readLoop_ok hloop
  exact ⟨e₄, o, result, res, e₂, hrejects, hround, hgo, rfl, rfl⟩

theorem readRound_ok {o : ReadOutcome} {result : List State} {res : State}
    (h : readRound P id all e = .ok ((o, result, res), e')) :
    ∃ e₁ e₂ frame, roundStart P id e = .ok (o, e₁) ∧ all e₁ = .ok (result, e₂) ∧
      e₂.lastFrame = some frame ∧ res = frame.push result ∧
      e' = { e₂ with lastFrame := some res } := by
  obtain ⟨o', e₁, hstart, h⟩ := Comp.bind_ok.mp h
  obtain ⟨result', e₂, hall, h⟩ := Comp.bind_ok.mp h
  obtain ⟨res', e₃, hpush, h⟩ := Comp.bind_ok.mp h
  cases h
  unfold pushLastFrame at hpush
  split at hpush
  · next frame hframe =>
      cases hpush
      exact ⟨e₁, e₂, frame, hstart, hall, hframe, rfl, rfl⟩
  · cases hpush

theorem receive_ok {o : ReadOutcome} {res : State} (h : receive P id o e = .ok (res, e')) :
    res = frameOf P id o ∧ e' = e := by
  unfold receive at h
  unfold frameOf
  split at h
  · next hpos =>
      split at h
      · rw [if_pos hpos]
        exact Comp.pure_ok.mp h
      · cases h
  · next hneg =>
      rw [if_neg hneg]
      exact Comp.pure_ok.mp h

theorem roundStart_ok {o : ReadOutcome} (h : roundStart P id e = .ok (o, e')) :
    o = e.reads.headD .timeout ∧
      e' = { e.dropFrame with
        reads := e.reads.tail
        trace := e.trace ++ [.read o.n o.data]
        lastFrame := some (frameOf P id o) } := by
  obtain ⟨o', e₁, hread, hrest⟩ := Comp.bind_ok.mp h
  cases hread
  obtain ⟨res, e₂, hreceive, hrest⟩ := Comp.bind_ok.mp hrest
  obtain ⟨rfl, rfl⟩ := receive_ok hreceive
  obtain ⟨_, e₃, hreplace, hrest⟩ := Comp.bind_ok.mp hrest
  cases hreplace
  obtain ⟨rfl, rfl⟩ := Comp.pure_ok.mp hrest
  refine ⟨rfl, ?_⟩
  unfold Env.dropFrame
  cases e.lastFrame <;> rfl

end Actions

/-! ## What the commands return -/

/-- A state that is no packet, has the name of its class and holds nothing but its
own bytes. -/
structure State.Plain (s : State) : Prop where
  cls : s.data.cls ≠ .sendPacket ∧ s.data.cls ≠ .readPacket ∧ s.data.cls ≠ .valueBin
  mark : s.data.stateValue = .ok ∨ s.data.stateValue = .fail
  unbound : s.data.boundAs = []
  name : s.data.name = s.data.cls.type

/-- The commands that do not attach the results of their sons, which nothing deletes then. -/
def Command.drops : Command → Bool
  | .additionCommand | .repeatCommand | .ceilDivideCommand => true
  | _ => false

/-- The state of a command other than `Variable` and `Memorize`.  It keeps the
results of the sons or drops them, and it fails only where there is a frame to
check. -/
structure Finished (drops : Bool) (result : List State) (e : Env) (s : State) : Prop where
  plain : s.Plain
  kept : drops = false → ∃ extra, s.sons = result ++ extra ∧
    ∀ r ∈ extra, r.Plain ∧ r.data.cls = .valueHex ∧ r.sons = []
  dropped : drops = true → s.sons = []
  fail : s.isFailValue = true → e.lastFrame.isSome = true

theorem Finished.sons {drops : Bool} {result : List State} {e : Env} {s : State}
    (h : Finished drops result e s) : s.sons = [] ∨ ∃ extra, s.sons = result ++ extra ∧
      ∀ r ∈ extra, r.Plain ∧ r.data.cls = .valueHex ∧ r.sons = [] := by
  cases drops with
  | false => exact .inr (h.kept rfl)
  | true => exact .inl (h.dropped rfl)

section Commands

variable {P : Platform} {id : Nat} {name : Bytes} {result : List State} {e e' : Env} {s : State}

section Peel

variable {β : Type} {b : β}

theorem ofExcept_bind_ok {α : Type} {x : Except Fault α} {k : α → EnvComp β} :
    (ofExcept x >>= k) e = .ok (b, e') ↔ ∃ a, x = .ok a ∧ k a e = .ok (b, e') := by
  rw [Comp.bind_eq]
  cases x with
  | error y => simp [ofExcept]
  | ok a => simp [ofExcept, Comp.pure_eq]

theorem argument_bind_ok {i : Nat} {k : State → EnvComp β} :
    (argument result i >>= k) e = .ok (b, e') ↔
      ∃ t, result[i]? = some t ∧ k t e = .ok (b, e') := by
  rw [Comp.bind_eq, argument]
  cases result[i]? with
  | none => simp
  | some t => simp [Comp.pure_eq]

theorem integerArgument_bind_ok {i : Nat} {k : Int → EnvComp β} :
    (integerArgument result i >>= k) e = .ok (b, e') ↔
      ∃ t n, result[i]? = some t ∧ t.getIntegerValue = .ok n ∧ k n e = .ok (b, e') := by
  rw [integerArgument, bind_assoc, argument_bind_ok]
  simp only [ofExcept_bind_ok, exists_and_left]

theorem wireArgument_bind_ok {i : Nat} {k : Bytes → EnvComp β} :
    (wireArgument result i >>= k) e = .ok (b, e') ↔
      ∃ t, result[i]? = some t ∧ k t.getStringToSend e = .ok (b, e') := by
  rw [wireArgument, bind_assoc, argument_bind_ok]
  simp only [pure_bind]

theorem getLastFrame_bind_ok {k : State → EnvComp β} :
    (getLastFrame >>= k) e = .ok (b, e') ↔
      ∃ t, e.lastFrame = some t ∧ k t e = .ok (b, e') := by
  rw [Comp.bind_eq, getLastFrame]
  cases e.lastFrame with
  | none => simp
  | some t => simp

end Peel

/-- A state that keeps the results of the sons. -/
theorem Finished.push {t : State} (ht : t.Plain) (hmark : t.data.stateValue = .ok)
    (hsons : t.sons = []) : Finished false result e (t.push result) where
  plain := ⟨ht.cls, ht.mark, ht.unbound, ht.name⟩
  kept _ := ⟨[], by rw [State.sons_push, hsons, List.nil_append, List.append_nil], nofun⟩
  dropped h := Bool.noConfusion h
  fail h := by
    rw [State.isFailValue, State.data_push, hmark] at h
    cases h

/-- A state that drops the results of the sons. -/
theorem Finished.drop {t : State} (ht : t.Plain) (hmark : t.data.stateValue = .ok)
    (hsons : t.sons = []) : Finished true result e t where
  plain := ht
  kept h := Bool.noConfusion h
  dropped _ := hsons
  fail h := by
    rw [State.isFailValue, hmark] at h
    cases h

theorem runAddition_ok (h : runAddition id result e = .ok (s, e')) :
    e' = e ∧ Finished true result e s := by
  obtain ⟨sum, _, h⟩ := ofExcept_bind_ok.mp h
  obtain ⟨rfl, rfl⟩ := Comp.pure_ok.mp h
  exact ⟨rfl, .drop ⟨⟨nofun, nofun, nofun⟩, .inl rfl, rfl, rfl⟩ rfl rfl⟩

theorem runCeilDivide_ok (h : runCeilDivide id result e = .ok (s, e')) :
    e' = e ∧ Finished true result e s := by
  obtain ⟨_, n, _, _, h⟩ := integerArgument_bind_ok.mp h
  obtain ⟨_, d, _, _, h⟩ := integerArgument_bind_ok.mp h
  obtain ⟨res, _, h⟩ := ofExcept_bind_ok.mp h
  obtain ⟨rfl, rfl⟩ := Comp.pure_ok.mp h
  exact ⟨rfl, .drop ⟨⟨nofun, nofun, nofun⟩, .inl rfl, rfl, rfl⟩ rfl rfl⟩

theorem runRepeat_ok (h : runRepeat id result e = .ok (s, e')) :
    e' = e ∧ Finished true result e s := by
  obtain ⟨blob, _, h⟩ := argument_bind_ok.mp h
  obtain ⟨_, times, _, _, h⟩ := integerArgument_bind_ok.mp h
  obtain ⟨rfl, rfl⟩ := Comp.pure_ok.mp h
  exact ⟨rfl, .drop ⟨⟨nofun, nofun, nofun⟩, .inl rfl, rfl, rfl⟩ rfl rfl⟩

theorem runLength_ok (h : runLength P id result e = .ok (s, e')) :
    e' = e ∧ Finished false result e s := by
  unfold runLength at h
  split at h
  · obtain ⟨_, size, _, _, h⟩ := integerArgument_bind_ok.mp h
    obtain ⟨_, _, h⟩ := wireArgument_bind_ok.mp h
    split at h
    · cases h
    · split at h
      · cases h
      · obtain ⟨rfl, rfl⟩ := Comp.pure_ok.mp h
        exact ⟨rfl, .push ⟨⟨nofun, nofun, nofun⟩, .inl rfl, rfl, rfl⟩ rfl rfl⟩
  · obtain ⟨rfl, rfl⟩ := Comp.pure_ok.mp h
    exact ⟨rfl, .push ⟨⟨nofun, nofun, nofun⟩, .inl rfl, rfl, rfl⟩ rfl rfl⟩

theorem runStringLength_ok (h : runStringLength id result e = .ok (s, e')) :
    e' = e ∧ Finished false result e s := by
  unfold runStringLength at h
  split at h
  · obtain ⟨_, _, h⟩ := wireArgument_bind_ok.mp h
    obtain ⟨rfl, rfl⟩ := Comp.pure_ok.mp h
    exact ⟨rfl, .push ⟨⟨nofun, nofun, nofun⟩, .inl rfl, rfl, rfl⟩ rfl rfl⟩
  · obtain ⟨rfl, rfl⟩ := Comp.pure_ok.mp h
    exact ⟨rfl, .push ⟨⟨nofun, nofun, nofun⟩, .inl rfl, rfl, rfl⟩ rfl rfl⟩

theorem runUPause_ok (h : runUPause id result e = .ok (s, e')) :
    e' = e ∧ Finished false result e s := by
  unfold runUPause at h
  split at h
  · obtain ⟨_, _, _, _, h⟩ := integerArgument_bind_ok.mp h
    obtain ⟨rfl, rfl⟩ := Comp.pure_ok.mp h
    exact ⟨rfl, .push ⟨⟨nofun, nofun, nofun⟩, .inl rfl, rfl, rfl⟩ rfl rfl⟩
  · obtain ⟨rfl, rfl⟩ := Comp.pure_ok.mp h
    exact ⟨rfl, .push ⟨⟨nofun, nofun, nofun⟩, .inl rfl, rfl, rfl⟩ rfl rfl⟩

theorem runMd5_ok (h : runMd5 P id result e = .ok (s, e')) :
    e' = e ∧ Finished false result e s := by
  obtain ⟨rfl, rfl⟩ := Comp.pure_ok.mp h
  exact ⟨rfl, ⟨⟨nofun, nofun, nofun⟩, .inl rfl, rfl, rfl⟩,
    fun _ => ⟨[], (List.append_nil _).symm, nofun⟩, nofun, nofun⟩

theorem runBase64Encode_ok (h : runBase64Encode id result e = .ok (s, e')) :
    e' = e ∧ Finished false result e s := by
  obtain ⟨rfl, rfl⟩ := Comp.pure_ok.mp h
  exact ⟨rfl, ⟨⟨nofun, nofun, nofun⟩, .inl rfl, rfl, rfl⟩,
    fun _ => ⟨[], (List.append_nil _).symm, nofun⟩, nofun, nofun⟩

theorem runBase64Decode_ok (h : runBase64Decode P id result e = .ok (s, e')) :
    e' = e ∧ Finished false result e s := by
  obtain ⟨rfl, rfl⟩ := Comp.pure_ok.mp h
  exact ⟨rfl, ⟨⟨nofun, nofun, nofun⟩, .inl rfl, rfl, rfl⟩,
    fun _ => ⟨[], (List.append_nil _).symm, nofun⟩, nofun, nofun⟩

theorem runMaskCheck_ok (h : runMaskCheck id name result e = .ok (s, e')) :
    e' = e ∧ Finished false result e s := by
  obtain ⟨frame, hframe, h⟩ := getLastFrame_bind_ok.mp h
  have hsome : e.lastFrame.isSome = true := by rw [hframe]; rfl
  have hend : ∀ equal : Bool, (if equal = true then
      (pure (((State.okState id).update (StateData.setStringValue name)).push result) :
        EnvComp State)
      else pure (((State.failState id).update (StateData.setStringValue
        (ascii "MaskCheck Fail"))).setFailValue.push result)) e = .ok (s, e') →
      e' = e ∧ Finished false result e s := by
    intro equal h
    split at h
    · obtain ⟨rfl, rfl⟩ := Comp.pure_ok.mp h
      exact ⟨rfl, .push ⟨⟨nofun, nofun, nofun⟩, .inl rfl, rfl, rfl⟩ rfl rfl⟩
    · obtain ⟨rfl, rfl⟩ := Comp.pure_ok.mp h
      exact ⟨rfl, ⟨⟨nofun, nofun, nofun⟩, .inr rfl, rfl, rfl⟩,
        fun _ => ⟨[], (List.append_nil _).symm, nofun⟩, nofun, fun _ => hsome⟩
  split at h
  · obtain ⟨_, _, h⟩ := wireArgument_bind_ok.mp h
    obtain ⟨_, _, h⟩ := wireArgument_bind_ok.mp h
    rw [pure_bind] at h
    exact hend _ h
  · rw [pure_bind] at h
    exact hend _ h

theorem runValueCheck_ok (h : runValueCheck P id name result e = .ok (s, e')) :
    e' = e ∧ Finished false result e s := by
  obtain ⟨frame, hframe, h⟩ := getLastFrame_bind_ok.mp h
  obtain ⟨_, _, h⟩ := wireArgument_bind_ok.mp h
  obtain ⟨_, _, h⟩ := wireArgument_bind_ok.mp h
  obtain ⟨_, _, h⟩ := wireArgument_bind_ok.mp h
  obtain ⟨disequal, _, h⟩ := ofExcept_bind_ok.mp h
  have hsome : e.lastFrame.isSome = true := by rw [hframe]; rfl
  split at h
  · obtain ⟨rfl, rfl⟩ := Comp.pure_ok.mp h
    exact ⟨rfl, .push ⟨⟨nofun, nofun, nofun⟩, .inl rfl, rfl, rfl⟩ rfl rfl⟩
  · obtain ⟨rfl, rfl⟩ := Comp.pure_ok.mp h
    refine ⟨rfl, ⟨⟨nofun, nofun, nofun⟩, .inr rfl, rfl, rfl⟩, fun _ => ⟨_, rfl, ?_⟩, nofun,
      fun _ => hsome⟩
    intro r hr
    rw [List.mem_singleton.mp hr]
    exact ⟨⟨⟨nofun, nofun, nofun⟩, .inl rfl, rfl, rfl⟩, rfl, rfl⟩

/-! ## Variables -/

/-- What `Variable` copies. -/
def copyState (P : Platform) (id : Nat) (v : State) : State :=
  ((State.valueHexState id).update fun d => { d with name := "Variable: " ++ v.data.name }).update
    (StateData.setRawValue P.uninit v.getStringToSend v.getStringToSend.length)

/-- What `Memorize` returns, without the results of its sons. -/
def memorizedState (P : Platform) (id : Nat) (value : Bytes) : State :=
  (State.valueHexState id).update (StateData.setRawValue P.uninit value value.length)

/-- A state that a variable points to. -/
def State.bind (var : Bytes) (s : State) : State :=
  s.update fun d => { d with boundAs := var :: d.boundAs }

@[simp] theorem State.getStringToSend_bind (var : Bytes) (s : State) :
    (s.bind var).getStringToSend = s.getStringToSend := by
  rw [State.getStringToSend_eq, State.getStringToSend_eq s, State.bind, State.data_update,
    State.sons_update]
  rfl

/-- What `Variable` captures. -/
def capturedState (P : Platform) (id : Nat) (var data : Bytes) (start lenght : Nat) : State :=
  ((State.valueHexState id).update
    (StateData.setRawValue P.uninit (data.drop start) lenght)).bind var

/-- The first argument names the variable. -/
def Names (result : List State) (var : Bytes) : Prop :=
  ∃ t, result[1]? = some t ∧ t.getStringValue = var

/-- `Variable` captures `lenght` bytes of `data` from `start` on. -/
structure Captures (result : List State) (e : Env) (var data : Bytes) (start lenght : Nat) :
    Prop where
  name : Names result var
  unbound : e.vars.lookup var = none
  frame : ∃ f, e.lastFrame = some f ∧ f.data.rawValue = some data
  offset : ∃ t, result[2]? = some t ∧ t.getIntegerValue = .ok (start : Int)
  size : ∃ t, result[3]? = some t ∧ t.getIntegerValue = .ok (lenght : Int)
  fits : start + lenght ≤ data.length

/-- `Variable` copies a bound variable and captures an unbound one. -/
theorem runVariable_ok (h : runVariable P id result e = .ok (s, e')) :
    (∃ var v, Names result var ∧ e.vars.lookup var = some (.live v) ∧ e' = e ∧
      s = (copyState P id v).push result) ∨
    ∃ var data start lenght, Captures result e var data start lenght ∧
      e' = { e with vars := (var, .live (capturedState P id var data start lenght)) :: e.vars } ∧
      s = (capturedState P id var data start lenght).push result := by
  obtain ⟨t, ht, h⟩ := argument_bind_ok.mp h
  obtain ⟨b, e₁, hcheck, h⟩ := Comp.bind_ok.mp h
  cases hcheck
  cases hlookup : e.vars.lookup t.getStringValue with
  | some v =>
      rw [hlookup] at h
      obtain ⟨v', e₂, hget, h⟩ := Comp.bind_ok.mp h
      unfold getVariable at hget
      rw [hlookup] at hget
      cases v with
      | live v =>
          cases hget
          obtain ⟨rfl, rfl⟩ := Comp.pure_ok.mp h
          exact .inl ⟨_, _, ⟨t, ht, rfl⟩, hlookup, rfl, rfl⟩
      | dangling => cases hget
  | none =>
      rw [hlookup] at h
      obtain ⟨frame, hframe, h⟩ := getLastFrame_bind_ok.mp h
      obtain ⟨ts, start, hts, hstart, h⟩ := integerArgument_bind_ok.mp h
      obtain ⟨tl, lenght, htl, hlenght, h⟩ := integerArgument_bind_ok.mp h
      cases hraw : frame.data.rawValue with
      | none =>
          rw [hraw] at h
          cases h
      | some data =>
          rw [hraw] at h
          simp only at h
          split at h
          · next hfits =>
              obtain ⟨s', e₂, hset, h⟩ := Comp.bind_ok.mp h
              unfold setVariable at hset
              rw [hlookup] at hset
              cases hset
              obtain ⟨rfl, rfl⟩ := Comp.pure_ok.mp h
              have hn : ((start.toNat : Nat) : Int) = start := Int.toNat_of_nonneg hfits.1
              have hl : ((lenght.toNat : Nat) : Int) = lenght := Int.toNat_of_nonneg hfits.2.1
              refine .inr ⟨_, data, start.toNat, lenght.toNat, ?_, rfl, rfl⟩
              exact ⟨⟨t, ht, rfl⟩, hlookup, ⟨frame, hframe, hraw⟩,
                ⟨ts, hts, by rw [hn]; exact hstart⟩,
                ⟨tl, htl, by rw [hl]; exact hlenght⟩, by omega⟩
          · cases h

/-- The last value set counts. -/
theorem update_setRawValue (P : Platform) (id : Nat) (str value : Bytes) :
    ((State.valueHexState id).update (StateData.setStringValue str)).update
      (StateData.setRawValue P.uninit value value.length) = memorizedState P id value := by
  have hdata : ∀ d : StateData, (d.setStringValue str).setRawValue P.uninit value value.length =
      d.setRawValue P.uninit value value.length := by
    intro d
    unfold StateData.setRawValue StateData.setStringValue
    rfl
  unfold memorizedState State.valueHexState State.ofClass State.update
  simp only
  rw [hdata]

/-- `Memorize` copies a bound variable and binds an unbound one. -/
theorem runMemorize_ok (h : runMemorize P id result e = .ok (s, e')) :
    (∃ var v, Names result var ∧ e.vars.lookup var = some (.live v) ∧ e' = e ∧
      s = (memorizedState P id v.getStringToSend).push result) ∨
    ∃ var t, Names result var ∧ e.vars.lookup var = none ∧
      result[2]? = some t ∧ e' = { e with vars := (var, .live (t.bind var)) :: e.vars } ∧
      s = (memorizedState P id t.getStringToSend).push (result.set 2 (t.bind var)) := by
  obtain ⟨u, hu, h⟩ := argument_bind_ok.mp h
  obtain ⟨b, e₁, hcheck, h⟩ := Comp.bind_ok.mp h
  cases hcheck
  cases hlookup : e.vars.lookup u.getStringValue with
  | some v =>
      rw [hlookup] at h
      obtain ⟨v', e₂, hget, h⟩ := Comp.bind_ok.mp h
      unfold getVariable at hget
      rw [hlookup] at hget
      cases v with
      | live v =>
          cases hget
          obtain ⟨rfl, rfl⟩ := Comp.pure_ok.mp h
          exact .inl ⟨_, _, ⟨u, hu, rfl⟩, hlookup, rfl, by rw [update_setRawValue]⟩
      | dangling => cases hget
  | none =>
      rw [hlookup] at h
      obtain ⟨t, ht, h⟩ := argument_bind_ok.mp h
      obtain ⟨s', e₂, hset, h⟩ := Comp.bind_ok.mp h
      unfold setVariable at hset
      rw [hlookup] at hset
      cases hset
      obtain ⟨rfl, rfl⟩ := Comp.pure_ok.mp h
      refine .inr ⟨_, t, ⟨u, hu, rfl⟩, hlookup, ht, rfl, ?_⟩
      rw [← State.getStringToSend_bind u.getStringValue t]
      rfl

/-- Only `Variable` and `Memorize` touch the environment. -/
theorem finish_ok {c : Command} (hv : c ≠ .variableCommand) (hm : c ≠ .memorizeCommand)
    (h : c.finish P id name result e = .ok (s, e')) : e' = e ∧ Finished c.drops result e s := by
  cases c with
  | variableCommand => exact absurd rfl hv
  | memorizeCommand => exact absurd rfl hm
  | additionCommand => exact runAddition_ok h
  | base64DecodeCommand => exact runBase64Decode_ok h
  | base64EncodeCommand => exact runBase64Encode_ok h
  | md5Command => exact runMd5_ok h
  | maskCheckCommand => exact runMaskCheck_ok h
  | valueCheckCommand => exact runValueCheck_ok h
  | uPauseCommand => exact runUPause_ok h
  | lengthCommand => exact runLength_ok h
  | stringLengthCommand => exact runStringLength_ok h
  | repeatCommand => exact runRepeat_ok h
  | ceilDivideCommand => exact runCeilDivide_ok h

end Commands

/-! ## Sons that are run -/

section Reach

variable {P : Platform} {sel : Nat → Nat}

/-- Running all of `sons` from `e` runs the son `d` at place `i` from `e'`. -/
def ReachesAll (P : Platform) (sel : Nat → Nat) (sons : List Composite) (e : Env) (i : Nat)
    (d : Composite) (e' : Env) : Prop :=
  ∃ pre post ss, sons = pre ++ d :: post ∧ pre.length = i ∧ evalSons P sel pre e = .ok (ss, e')

/-- The same for the run that stops at the first failure. -/
def ReachesReturn (P : Platform) (sel : Nat → Nat) (sons : List Composite) (e : Env) (i : Nat)
    (d : Composite) (e' : Env) : Prop :=
  ∃ pre post ss, sons = pre ++ d :: post ∧ pre.length = i ∧
    evalSonsReturn P sel pre e = .ok (ss, e') ∧ thereIsAFail ss = false

/-- The run of a node from `e` runs its son `d`, at place `i`, from `e'`. -/
inductive RunsSon (P : Platform) (sel : Nat → Nat) :
    Composite → Env → Nat → Composite → Env → Prop where
  | sequence {id : Nat} {name : Bytes} {sons : List Composite} {e e' : Env} {i : Nat}
      {d : Composite} (ha : factoryAction sons = .returnAction)
      (h : ReachesReturn P sel sons e i d e') :
      RunsSon P sel (.node .composite id name sons) e i d e'
  | send {id : Nat} {name : Bytes} {sons : List Composite} {e e' : Env} {i : Nat} {d : Composite}
      {socket : Transport} (ha : factoryAction sons = .sendAction socket)
      (h : ReachesAll P sel sons e i d e') :
      RunsSon P sel (.node .composite id name sons) e i d e'
  | command {id : Nat} {name : Bytes} {sons : List Composite} {e e' : Env} {i : Nat}
      {d : Composite} {c : Command} (ha : factoryAction sons = .command c)
      (h : ReachesAll P sel sons e i d e') :
      RunsSon P sel (.node .composite id name sons) e i d e'
  | read {id : Nat} {name : Bytes} {sons : List Composite} {e e₁ e₂ e' : Env} {i : Nat}
      {d : Composite} {socket : Transport} {o : ReadOutcome}
      (ha : factoryAction sons = .readAction socket)
      (hrounds : Relation.ReflTransGen (Rejects P id (evalSons P sel sons)) e e₁)
      (hstart : roundStart P id e₁ = .ok (o, e₂)) (h : ReachesAll P sel sons e₂ i d e') :
      RunsSon P sel (.node .composite id name sons) e i d e'
  | alternative {id : Nat} {name : Bytes} {sons : List Composite} {e e' : Env} {i : Nat}
      {d : Composite} (h : ReachesAll P sel sons e i d e') :
      RunsSon P sel (.node .orComposite id name sons) e i d e'
  | copy {id : Nat} {name : Bytes} {sons : List Composite} {e e₁ e' : Env} {i k : Nat}
      {d : Composite} {ss : List State} (hk : k < (extractInt name).toNat)
      (hcopies : runTimes (returnAction id name (evalSonsReturn P sel sons)) k e = .ok (ss, e₁))
      (h : ReachesReturn P sel sons e₁ i d e') :
      RunsSon P sel (.node .repeatComposite id name sons) e i d e'

/-- The run of a node from `e` runs the node `x` from `e'`. -/
inductive Visits (P : Platform) (sel : Nat → Nat) :
    Composite → Env → Composite → Env → Prop where
  | refl {c : Composite} {e : Env} : Visits P sel c e c e
  | son {c d x : Composite} {e e₁ e' : Env} {i : Nat} (h : RunsSon P sel c e i d e₁)
      (hx : Visits P sel d e₁ x e') : Visits P sel c e x e'

theorem ReachesAll.head (c : Composite) (cs : List Composite) (e : Env) :
    ReachesAll P sel (c :: cs) e 0 c e :=
  ⟨[], cs, [], rfl, rfl, by rw [evalSons]; rfl⟩

theorem ReachesAll.tail {c d : Composite} {cs : List Composite} {e e₁ e' : Env} {s : State}
    {i : Nat}
    (hc : eval P sel c e = .ok (s, e₁)) (h : ReachesAll P sel cs e₁ i d e') :
    ReachesAll P sel (c :: cs) e (i + 1) d e' := by
  obtain ⟨pre, post, ss, rfl, rfl, hpre⟩ := h
  refine ⟨c :: pre, post, s :: ss, rfl, rfl, ?_⟩
  rw [evalSons, Comp.bind_ok]
  exact ⟨s, e₁, hc, Comp.bind_ok.mpr ⟨ss, e', hpre, rfl⟩⟩

theorem ReachesReturn.head (c : Composite) (cs : List Composite) (e : Env) :
    ReachesReturn P sel (c :: cs) e 0 c e :=
  ⟨[], cs, [], rfl, rfl, by rw [evalSonsReturn]; rfl, rfl⟩

theorem ReachesReturn.tail {c d : Composite} {cs : List Composite} {e e₁ e' : Env} {s : State}
    {i : Nat} (hc : eval P sel c e = .ok (s, e₁)) (hs : s.isFailValue = false)
    (h : ReachesReturn P sel cs e₁ i d e') : ReachesReturn P sel (c :: cs) e (i + 1) d e' := by
  obtain ⟨pre, post, ss, rfl, rfl, hpre, hss⟩ := h
  refine ⟨c :: pre, post, s :: ss, rfl, rfl, ?_, ?_⟩
  · rw [evalSonsReturn, Comp.bind_ok]
    refine ⟨s, e₁, hc, ?_⟩
    rw [hs]
    exact Comp.bind_ok.mpr ⟨ss, e', hpre, rfl⟩
  · rw [thereIsAFail, List.any_cons, hs]
    exact hss

theorem ReachesAll.mem {sons : List Composite} {e e' : Env} {i : Nat} {d : Composite}
    (h : ReachesAll P sel sons e i d e') : d ∈ sons := by
  obtain ⟨pre, post, _, rfl, _⟩ := h
  simp

theorem ReachesReturn.mem {sons : List Composite} {e e' : Env} {i : Nat} {d : Composite}
    (h : ReachesReturn P sel sons e i d e') : d ∈ sons := by
  obtain ⟨pre, post, _, rfl, _⟩ := h
  simp

theorem RunsSon.mem {c d : Composite} {e e' : Env} {i : Nat} (h : RunsSon P sel c e i d e') :
    d ∈ c.sons := by
  cases h with
  | sequence _ h => exact h.mem
  | send _ h => exact h.mem
  | command _ h => exact h.mem
  | read _ _ _ h => exact h.mem
  | alternative h => exact h.mem
  | copy _ _ h => exact h.mem

/-! ## Runs of the sons taken apart -/

theorem evalSons_cons_ok {c : Composite} {cs : List Composite} {e e' : Env} {ss : List State} :
    evalSons P sel (c :: cs) e = .ok (ss, e') ↔ ∃ s e₁ ss', eval P sel c e = .ok (s, e₁) ∧
      evalSons P sel cs e₁ = .ok (ss', e') ∧ ss = s :: ss' := by
  rw [evalSons, Comp.bind_ok]
  constructor
  · rintro ⟨s, e₁, hs, h⟩
    obtain ⟨ss', e₂, hss, h⟩ := Comp.bind_ok.mp h
    obtain ⟨rfl, rfl⟩ := Comp.pure_ok.mp h
    exact ⟨s, e₁, ss', hs, hss, rfl⟩
  · rintro ⟨s, e₁, ss', hs, hss, rfl⟩
    exact ⟨s, e₁, hs, Comp.bind_ok.mpr ⟨ss', e', hss, rfl⟩⟩

/-- A node with a command runs its sons and hands their results to the command. -/
theorem eval_command {c : Command} {command : Bytes} (hc : commandAction command = .command c)
    {args : List Composite} {e e' : Env} {result : List State}
    (h : evalSons P sel args e = .ok (result, e')) (husage : c.usage (args.length + 1) = pure ())
    (id commandId : Nat) (name : Bytes) :
    eval P sel (.node .composite id name (.leaf .commandComposite commandId command :: args)) e =
      c.finish P id name (State.okState commandId :: result) e' := by
  have hsons : evalSons P sel (.leaf .commandComposite commandId command :: args) e =
      .ok (State.okState commandId :: result, e') :=
    evalSons_cons_ok.mpr ⟨_, e, result, by rw [eval]; rfl, h, rfl⟩
  have hstrategy : strategyOf .composite (.leaf .commandComposite commandId command :: args) =
      .command c := hc
  rw [eval, hstrategy, runAction, commandActionOn, List.length_cons, husage]
  simp only [liftEnv_env, Comp.bind_eq, Comp.pure_eq, hsons]

theorem evalSons_append_ok {cs ds : List Composite} {e e' : Env} {ss : List State} :
    evalSons P sel (cs ++ ds) e = .ok (ss, e') ↔ ∃ ss₁ e₁ ss₂,
      evalSons P sel cs e = .ok (ss₁, e₁) ∧ evalSons P sel ds e₁ = .ok (ss₂, e') ∧
        ss = ss₁ ++ ss₂ := by
  induction cs generalizing e ss with
  | nil =>
      rw [List.nil_append]
      constructor
      · intro h
        exact ⟨[], e, ss, by rw [evalSons]; rfl, h, rfl⟩
      · rintro ⟨ss₁, e₁, ss₂, hnil, h, rfl⟩
        rw [evalSons, Comp.pure_ok] at hnil
        obtain ⟨rfl, rfl⟩ := hnil
        exact h
  | cons c cs ih =>
      rw [List.cons_append]
      simp only [evalSons_cons_ok, ih]
      constructor
      · rintro ⟨s, e₁, ss', hs, ⟨ss₁, e₂, ss₂, h₁, h₂, rfl⟩, rfl⟩
        exact ⟨s :: ss₁, e₂, ss₂, ⟨s, e₁, ss₁, hs, h₁, rfl⟩, h₂, rfl⟩
      · rintro ⟨ss₁, e₂, ss₂, ⟨s, e₁, ss', hs, h₁, rfl⟩, h₂, rfl⟩
        exact ⟨s, e₁, ss' ++ ss₂, hs, ⟨ss', e₂, ss₂, h₁, h₂, rfl⟩, rfl⟩

/-- The run of the sons goes on where the first ones have left off. -/
theorem evalSons_append_of_ok {cs ds : List Composite} {e e₁ : Env} {ss₁ : List State}
    (h₁ : evalSons P sel cs e = .ok (ss₁, e₁)) :
    evalSons P sel (cs ++ ds) e = match evalSons P sel ds e₁ with
      | .error x => .error x
      | .ok (ss₂, e') => .ok (ss₁ ++ ss₂, e') := by
  induction cs generalizing e ss₁ with
  | nil =>
      rw [evalSons, Comp.pure_ok] at h₁
      obtain ⟨rfl, rfl⟩ := h₁
      rw [List.nil_append]
      cases evalSons P sel ds e₁ <;> rfl
  | cons c cs ih =>
      obtain ⟨s, e₂, ss', hs, hss, rfl⟩ := evalSons_cons_ok.mp h₁
      rw [List.cons_append, evalSons, Comp.bind_eq, hs]
      simp only
      rw [Comp.bind_eq, ih hss]
      cases evalSons P sel ds e₁ <;> rfl

/-- A run that stops at the first failure runs the first son, and the others
unless it fails. -/
theorem evalSonsReturn_cons_ok {c : Composite} {cs : List Composite} {e e' : Env}
    {ss : List State} :
    evalSonsReturn P sel (c :: cs) e = .ok (ss, e') ↔ ∃ s e₁, eval P sel c e = .ok (s, e₁) ∧
      if s.isFailValue then ss = [s] ∧ e' = e₁
      else ∃ ss', evalSonsReturn P sel cs e₁ = .ok (ss', e') ∧ ss = s :: ss' := by
  rw [evalSonsReturn, Comp.bind_ok]
  refine exists_congr fun s => exists_congr fun e₁ => and_congr_right fun _ => ?_
  split
  · exact Comp.pure_ok
  · rw [Comp.bind_ok]
    constructor
    · rintro ⟨ss', e₂, hss, h⟩
      obtain ⟨rfl, rfl⟩ := Comp.pure_ok.mp h
      exact ⟨ss', hss, rfl⟩
    · rintro ⟨ss', hss, rfl⟩
      exact ⟨ss', e', hss, rfl⟩

/-- Behind sons that do not fail the run goes on. -/
theorem evalSonsReturn_append_ok {cs ds : List Composite} {e e₁ e' : Env} {ss ss₁ : List State}
    (h₁ : evalSonsReturn P sel cs e = .ok (ss₁, e₁)) (hok : thereIsAFail ss₁ = false) :
    evalSonsReturn P sel (cs ++ ds) e = .ok (ss, e') ↔
      ∃ ss₂, evalSonsReturn P sel ds e₁ = .ok (ss₂, e') ∧ ss = ss₁ ++ ss₂ := by
  induction cs generalizing e ss ss₁ with
  | nil =>
      rw [evalSonsReturn, Comp.pure_ok] at h₁
      obtain ⟨rfl, rfl⟩ := h₁
      simp
  | cons c cs ih =>
      obtain ⟨s, e₂, hs, hrest⟩ := evalSonsReturn_cons_ok.mp h₁
      rw [List.cons_append, evalSonsReturn_cons_ok]
      cases hfail : s.isFailValue with
      | true =>
          rw [hfail] at hrest
          rw [if_pos rfl] at hrest
          rw [hrest.1, thereIsAFail, List.any_cons, hfail] at hok
          cases hok
      | false =>
          rw [hfail, if_neg Bool.false_ne_true] at hrest
          obtain ⟨ss', hss', rfl⟩ := hrest
          rw [thereIsAFail, List.any_cons, hfail, Bool.false_or] at hok
          constructor
          · rintro ⟨s', e₃, hs', hrest⟩
            rw [hs] at hs'
            cases hs'
            rw [hfail, if_neg Bool.false_ne_true] at hrest
            obtain ⟨ss₃, h₃, rfl⟩ := hrest
            obtain ⟨ss₂, h₂, rfl⟩ := (ih hss' hok).mp h₃
            exact ⟨ss₂, h₂, rfl⟩
          · rintro ⟨ss₂, h₂, rfl⟩
            refine ⟨s, e₂, hs, ?_⟩
            rw [hfail, if_neg Bool.false_ne_true]
            exact ⟨ss' ++ ss₂, (ih hss' hok).mpr ⟨ss₂, h₂, rfl⟩, rfl⟩

/-- A result of the sons is the result of the son at its place. -/
theorem evalSons_getElem? {cs : List Composite} {e e' : Env} {ss : List State} {i : Nat} {r : State}
    (h : evalSons P sel cs e = .ok (ss, e')) (hr : ss[i]? = some r) :
    ∃ d ed ed', cs[i]? = some d ∧ ReachesAll P sel cs e i d ed ∧
      eval P sel d ed = .ok (r, ed') := by
  induction cs generalizing e ss i with
  | nil =>
      rw [evalSons, Comp.pure_ok] at h
      rw [h.1] at hr
      cases hr
  | cons c cs ih =>
      obtain ⟨s, e₁, ss', hs, hss, rfl⟩ := evalSons_cons_ok.mp h
      cases i with
      | zero =>
          cases hr
          exact ⟨c, e, e₁, rfl, .head c cs e, hs⟩
      | succ i =>
          obtain ⟨d, ed, ed', hd, hreach, hrun⟩ := ih hss hr
          exact ⟨d, ed, ed', hd, .tail hs hreach, hrun⟩

/-- The same for the run that stops at the first failure. -/
theorem evalSonsReturn_getElem? {cs : List Composite} {e e' : Env} {ss : List State} {i : Nat}
    {r : State} (h : evalSonsReturn P sel cs e = .ok (ss, e')) (hr : ss[i]? = some r) :
    ∃ d ed ed', cs[i]? = some d ∧ ReachesReturn P sel cs e i d ed ∧
      eval P sel d ed = .ok (r, ed') := by
  induction cs generalizing e ss i with
  | nil =>
      rw [evalSonsReturn, Comp.pure_ok] at h
      rw [h.1] at hr
      cases hr
  | cons c cs ih =>
      obtain ⟨s, e₁, hs, hrest⟩ := evalSonsReturn_cons_ok.mp h
      obtain ⟨ss', rfl⟩ : ∃ ss', ss = s :: ss' := by
        split at hrest
        · exact ⟨[], hrest.1⟩
        · obtain ⟨ss', _, hss⟩ := hrest
          exact ⟨ss', hss⟩
      cases i with
      | zero =>
          cases hr
          exact ⟨c, e, e₁, rfl, .head c cs e, hs⟩
      | succ i =>
          cases hfail : s.isFailValue with
          | true =>
              rw [hfail, if_pos rfl] at hrest
              rw [(List.cons.inj hrest.1).2] at hr
              cases hr
          | false =>
              rw [hfail, if_neg Bool.false_ne_true] at hrest
              obtain ⟨ss'', hss, heq⟩ := hrest
              cases heq
              obtain ⟨d, ed, ed', hd, hreach, hrun⟩ := ih hss hr
              exact ⟨d, ed, ed', hd, .tail hs hfail hreach, hrun⟩

/-- A result of repeated runs is the result of one of them. -/
theorem runTimes_mem {m : EnvComp State} {n : Nat} {e e' : Env} {rs : List State} {r : State}
    (h : runTimes m n e = .ok (rs, e')) (hr : r ∈ rs) :
    ∃ k ss e₁ e₂, k < n ∧ runTimes m k e = .ok (ss, e₁) ∧ m e₁ = .ok (r, e₂) := by
  induction n generalizing e rs with
  | zero =>
      rw [(Comp.pure_ok.mp h).1] at hr
      cases hr
  | succ n ih =>
      obtain ⟨s, e₁, ss', hs, hss, rfl⟩ := runTimes_succ_ok h
      cases List.mem_cons.mp hr with
      | inl heq => exact ⟨0, [], e, e₁, Nat.succ_pos n, rfl, heq ▸ hs⟩
      | inr hr =>
          obtain ⟨k, ss, e₂, e₃, hk, hcopies, hm⟩ := ih hss hr
          refine ⟨k + 1, s :: ss, e₂, e₃, Nat.succ_lt_succ hk, ?_, hm⟩
          exact Comp.bind_ok.mpr ⟨s, e₁, hs, Comp.bind_ok.mpr ⟨ss, e₂, hcopies, rfl⟩⟩

/-- The run of all sons around one of them. -/
theorem ReachesAll.ok {sons : List Composite} {e ed e' : Env} {i : Nat} {d : Composite}
    {ss : List State} (h : ReachesAll P sel sons e i d ed)
    (hrun : evalSons P sel sons e = .ok (ss, e')) :
    ∃ pre post ss₁ s ed' ss₂, sons = pre ++ d :: post ∧ pre.length = i ∧
      evalSons P sel pre e = .ok (ss₁, ed) ∧ eval P sel d ed = .ok (s, ed') ∧
      evalSons P sel post ed' = .ok (ss₂, e') ∧ ss = ss₁ ++ s :: ss₂ := by
  obtain ⟨pre, post, ss₁, rfl, hi, hpre⟩ := h
  obtain ⟨ss₁', e₁, rest, hpre', hrest, rfl⟩ := evalSons_append_ok.mp hrun
  rw [hpre] at hpre'
  cases hpre'
  obtain ⟨s, ed', ss₂, hs, hpost, rfl⟩ := evalSons_cons_ok.mp hrest
  exact ⟨pre, post, ss₁, s, ed', ss₂, rfl, hi, hpre, hs, hpost, rfl⟩

/-- The run that stops at the first failure around a son that it runs. -/
theorem ReachesReturn.ok {sons : List Composite} {e ed e' : Env} {i : Nat} {d : Composite}
    {ss : List State} (h : ReachesReturn P sel sons e i d ed)
    (hrun : evalSonsReturn P sel sons e = .ok (ss, e')) :
    ∃ pre post ss₁ s ed', sons = pre ++ d :: post ∧ pre.length = i ∧
      evalSonsReturn P sel pre e = .ok (ss₁, ed) ∧ thereIsAFail ss₁ = false ∧
      eval P sel d ed = .ok (s, ed') ∧
      if s.isFailValue then ss = ss₁ ++ [s] ∧ e' = ed'
      else ∃ ss₂, evalSonsReturn P sel post ed' = .ok (ss₂, e') ∧ ss = ss₁ ++ s :: ss₂ := by
  obtain ⟨pre, post, ss₁, rfl, hi, hpre, hok⟩ := h
  obtain ⟨rest, hrest, rfl⟩ := (evalSonsReturn_append_ok hpre hok).mp hrun
  obtain ⟨s, ed', hs, hcont⟩ := evalSonsReturn_cons_ok.mp hrest
  refine ⟨pre, post, ss₁, s, ed', rfl, hi, hpre, hok, hs, ?_⟩
  split
  · next hfail =>
      rw [if_pos hfail] at hcont
      exact ⟨by rw [hcont.1], hcont.2⟩
  · next hfail =>
      rw [if_neg hfail] at hcont
      obtain ⟨ss₂, hss₂, rfl⟩ := hcont
      exact ⟨ss₂, hss₂, rfl⟩

/-- The copies of a repetition around one of them. -/
theorem runTimes_ok {m : EnvComp State} {k n : Nat} {e e₁ e' : Env} {ss rs : List State}
    (hk : k < n) (hcopies : runTimes m k e = .ok (ss, e₁)) (hrun : runTimes m n e = .ok (rs, e')) :
    ∃ s e₂ rest, m e₁ = .ok (s, e₂) ∧ runTimes m (n - k - 1) e₂ = .ok (rest, e') ∧
      rs = ss ++ s :: rest := by
  induction k generalizing n e ss rs with
  | zero =>
      obtain ⟨rfl, rfl⟩ := Comp.pure_ok.mp hcopies
      obtain ⟨n, rfl⟩ := Nat.exists_eq_succ_of_ne_zero (Nat.pos_iff_ne_zero.mp hk)
      obtain ⟨s, e₂, rest, hs, hrest, rfl⟩ := runTimes_succ_ok hrun
      exact ⟨s, e₂, rest, hs, by simpa using hrest, rfl⟩
  | succ k ih =>
      obtain ⟨n, rfl⟩ := Nat.exists_eq_succ_of_ne_zero (Nat.ne_of_gt (Nat.zero_lt_of_lt hk))
      obtain ⟨s, e₂, ss', hs, hss, rfl⟩ := runTimes_succ_ok hcopies
      obtain ⟨s', e₃, rs', hs', hrs, rfl⟩ := runTimes_succ_ok hrun
      rw [hs] at hs'
      cases hs'
      obtain ⟨s', e₄, rest, hm, hrest, rfl⟩ := ih (Nat.lt_of_succ_lt_succ hk) hss hrs
      exact ⟨s', e₄, rest, hm, by rw [Nat.succ_sub_succ]; exact hrest, rfl⟩

/-- Rounds are determined by the environment they start from. -/
theorem rejects_rightUnique (P : Platform) (id : Nat) (all : EnvComp (List State)) :
    Relator.RightUnique (Rejects P id all) := by
  rintro e e₁ e₂ ⟨o, result, res, hround, _⟩ ⟨o', result', res', hround', _⟩
  rw [hround] at hround'
  cases hround'
  rfl

/-- A round that the loop of a read comes to is a rejected round or the last. -/
theorem readRound_of_rejects {all : EnvComp (List State)} {id : Nat} {e e₁ e₂ e₃ : Env}
    {o : ReadOutcome} {result : List State} {res : State}
    (hrejects : Relation.ReflTransGen (Rejects P id all) e e₁)
    (hlast : Relation.ReflTransGen (Rejects P id all) e e₂)
    (hround : readRound P id all e₂ = .ok ((o, result, res), e₃))
    (hgo : goesOn o result = false) :
    ∃ p e₄, readRound P id all e₁ = .ok (p, e₄) ∧
      (e₄ = e₃ ∨ Relation.ReflTransGen (Rejects P id all) e₄ e₂) := by
  have hstop : ∀ e', ¬ Rejects P id all e₂ e' := by
    rintro e' ⟨o', result', res', hround', hgo'⟩
    rw [hround] at hround'
    cases hround'
    rw [hgo] at hgo'
    cases hgo'
  have htotal := Relation.ReflTransGen.total_of_right_unique (rejects_rightUnique P id all)
    hrejects hlast
  cases htotal with
  | inl hon =>
      cases hon.cases_head with
      | inl heq => exact ⟨_, e₃, heq ▸ hround, .inl rfl⟩
      | inr hstep =>
          obtain ⟨e₄, ⟨o', result', res', hround', _⟩, hrest⟩ := hstep
          exact ⟨_, e₄, hround', .inr hrest⟩
  | inr hback =>
      cases hback.cases_head with
      | inl heq => exact ⟨_, e₃, heq ▸ hround, .inl rfl⟩
      | inr hstep =>
          obtain ⟨e₄, hreject, _⟩ := hstep
          exact absurd hreject (hstop e₄)

end Reach

/-! ## Runs in a world -/

/-- A run in a world is a run over its environment. -/
theorem World.eval_of_runTest {P : Platform} {t : ParsedTree} {extra : Nat} {w w' : World}
    {c : Composite} {s : State} (hw : w.Valid t extra) (hc : c ∈ t.root.nodes)
    (h : runTest P c w = .ok (s, w')) : eval P w.selected c w.env = .ok (s, w'.env) := by
  have hagree := runTest_agree (P := P) hw hc
  rw [h] at hagree
  cases he : eval P w.selected c w.env with
  | error x => rw [he] at hagree; exact hagree.elim
  | ok p =>
      rw [he] at hagree
      obtain ⟨hs, hin⟩ := hagree
      rw [hin.env]
      exact congrArg Except.ok (Prod.ext hs.symm rfl)

end Stress

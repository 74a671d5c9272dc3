import Stress.Base64
import Stress.Denotation
import Stress.Effects

/-!
# Which packets a read takes

`ReadAction::runAction` reads packets until its sons accept one.  A son that reads itself
would leave no last frame for the round it is in, so the sons of a round that ends take no
packets (`eval_takes`).  The packets of a read are then the next ones of its socket, each
rejected but the last (`read_takes`).

The loop comes to an end in every run: a turn after which it goes on has taken a packet
that was there, and after a timeout it does not go on (`eval_ends`).

Whether a mask check accepts a packet depends on the packet alone.  A read with such checks
drops the packets up to the first one that passes all of them (`masked_read_takes_first`).

A variable that is captured in a round points into the frame of the round.  A rejected frame
is deleted, and the capture of the next round finds the name bound and reads the deleted
state.  So a read with such a capture ends only with its first packet
(`capture_takes_first`).
-/

namespace Stress

/-! ## A rule for runs -/

/-- A relation that the elementary changes of the environment keep. -/
structure RunRule (Q : Env → Env → Prop) : Prop where
  refl : ∀ e, Q e e
  trans : ∀ {e e₁ e'}, Q e e₁ → Q e₁ e' → Q e e'
  vars : ∀ e vars, Q e { e with vars := vars }
  sent : ∀ data e, Q e (e.sent data)

section Rule

variable {P : Platform} {sel : Nat → Nat} {Q : Env → Env → Prop} {e e' : Env} {s : State}

theorem RunRule.finish (hQ : RunRule Q) {c : Command} {id : Nat} {name : Bytes}
    {result : List State} (h : c.finish P id name result e = .ok (s, e')) : Q e e' := by
  by_cases hv : c = .variableCommand
  · subst hv
    obtain ⟨_, _, _, _, rfl, _⟩ | ⟨_, _, _, _, _, rfl, _⟩ := runVariable_ok h
    · exact hQ.refl _
    · exact hQ.vars _ _
  · by_cases hm : c = .memorizeCommand
    · subst hm
      obtain ⟨_, _, _, _, rfl, _⟩ | ⟨_, _, _, _, _, rfl, _⟩ := runMemorize_ok h
      · exact hQ.refl _
      · exact hQ.vars _ _
    · rw [(finish_ok hv hm h).1]
      exact hQ.refl _

theorem RunRule.select (hQ : RunRule Q) {value : Nat} {result : List State}
    (h : selectResult value result e = .ok (s, e')) : Q e e' := by
  obtain ⟨_, _, _, rfl⟩ := selectResult_ok h
  obtain ⟨vars, hdelete⟩ := foldl_delete_eq (result.eraseIdx value) e
  rw [hdelete]
  exact hQ.vars e _

theorem RunRule.evalSons (hQ : RunRule Q) {cs : List Composite}
    (h : ∀ c ∈ cs, ∀ {e s e'}, eval P sel c e = .ok (s, e') → Q e e') {ss : List State}
    (hrun : evalSons P sel cs e = .ok (ss, e')) : Q e e' := by
  induction cs generalizing e ss with
  | nil =>
      rw [Stress.evalSons, Comp.pure_ok] at hrun
      obtain ⟨_, rfl⟩ := hrun
      exact hQ.refl _
  | cons c cs ih =>
      obtain ⟨s, e₁, ss', hs, hss, _⟩ := evalSons_cons_ok.mp hrun
      exact hQ.trans (h c List.mem_cons_self hs)
        (ih (fun d hd => h d (List.mem_cons_of_mem _ hd)) hss)

theorem RunRule.evalSonsReturn (hQ : RunRule Q) {cs : List Composite}
    (h : ∀ c ∈ cs, ∀ {e s e'}, eval P sel c e = .ok (s, e') → Q e e') {ss : List State}
    (hrun : evalSonsReturn P sel cs e = .ok (ss, e')) : Q e e' := by
  induction cs generalizing e ss with
  | nil =>
      rw [Stress.evalSonsReturn, Comp.pure_ok] at hrun
      obtain ⟨_, rfl⟩ := hrun
      exact hQ.refl _
  | cons c cs ih =>
      obtain ⟨s, e₁, hs, hrest⟩ := evalSonsReturn_cons_ok.mp hrun
      have hc := h c List.mem_cons_self hs
      split at hrest
      · obtain ⟨_, rfl⟩ := hrest
        exact hc
      · obtain ⟨ss', hss, _⟩ := hrest
        exact hQ.trans hc (ih (fun d hd => h d (List.mem_cons_of_mem _ hd)) hss)

theorem RunRule.runTimes (hQ : RunRule Q) {m : EnvComp State}
    (hm : ∀ {e s e'}, m e = .ok (s, e') → Q e e') {n : Nat} {ss : List State}
    (h : runTimes m n e = .ok (ss, e')) : Q e e' := by
  induction n generalizing e ss with
  | zero =>
      obtain ⟨_, rfl⟩ := Comp.pure_ok.mp h
      exact hQ.refl _
  | succ n ih =>
      obtain ⟨s, e₁, ss', hs, hss, _⟩ := runTimes_succ_ok h
      exact hQ.trans (hm hs) (ih hss)

/-- What the elementary changes and whole reads keep, every run keeps. -/
theorem RunRule.eval (hQ : RunRule Q)
    (hread : ∀ {id : Nat} {sons : List Composite} {e e' : Env} {s : State},
      (∀ {e ss e'}, Stress.evalSons P sel sons e = .ok (ss, e') → Q e e') →
        readAction P id (Stress.evalSons P sel sons) e = .ok (s, e') → Q e e')
    (c : Composite) (h : eval P sel c e = .ok (s, e')) : Q e e' := by
  induction c using Composite.induction generalizing e e' s with
  | h c ih =>
      cases c with
      | leaf kind id name =>
          rw [Stress.eval, Comp.pure_ok] at h
          obtain ⟨_, rfl⟩ := h
          exact hQ.refl _
      | node kind id name sons =>
          have hall : ∀ {e ss e'}, Stress.evalSons P sel sons e = .ok (ss, e') → Q e e' :=
            fun hrun => hQ.evalSons (fun c hc _ _ _ hrun => ih c hc hrun) hrun
          have hbrk : ∀ {e s e'},
              returnAction id name (Stress.evalSonsReturn P sel sons) e = .ok (s, e') → Q e e' := by
            intro e s e' hrun
            obtain ⟨_, _, hsons, _⟩ := returnAction_ok hrun
            exact hQ.evalSonsReturn (fun c hc _ _ _ hrun => ih c hc hrun) hsons
          rw [Stress.eval] at h
          cases ha : strategyOf kind sons with
          | returnAction =>
              rw [ha, runAction] at h
              exact hbrk h
          | repeatAction =>
              rw [ha, runAction] at h
              obtain ⟨results, hruns, _⟩ := repeatAction_ok h
              exact hQ.runTimes hbrk hruns
          | injectAction n =>
              rw [ha, runAction] at h
              obtain ⟨result, e₁, hrun, hselect⟩ := injectAction_ok h
              exact hQ.trans (hall hrun) (hQ.select hselect)
          | sendAction socket =>
              rw [ha, runAction] at h
              obtain ⟨result, e₁, hrun, _, rfl⟩ := sendAction_ok h
              exact hQ.trans (hall hrun) (hQ.sent _ _)
          | readAction socket =>
              rw [ha, runAction] at h
              exact hread hall h
          | command c =>
              rw [ha, runAction] at h
              obtain ⟨_, result, e₁, hrun, hfinish⟩ := commandActionOn_ok h
              exact hQ.trans (hall hrun) (hQ.finish hfinish)

end Rule

/-! ## The packets of a round -/

/-- What the reads of a trace have given. -/
def received (trace : List Event) : List ReadOutcome :=
  trace.filterMap fun
    | .send _ _ => none
    | .read n data => some ⟨n, data⟩

theorem received_append (tr tr' : List Event) :
    received (tr ++ tr') = received tr ++ received tr' := List.filterMap_append

/-- The last frame stays and no packet is taken, or there is no last frame any more. -/
def Takes (e e' : Env) : Prop :=
  e'.lastFrame = none ∨
    (e'.lastFrame = e.lastFrame ∧ e'.reads = e.reads ∧ received e'.trace = received e.trace)

theorem takes_rule : RunRule Takes where
  refl _ := .inr ⟨rfl, rfl, rfl⟩
  trans {e e₁ e'} h h' := by
    obtain hnone | ⟨hframe, hreads, hrec⟩ := h
    · obtain hnone' | ⟨hframe', _, _⟩ := h'
      · exact .inl hnone'
      · exact .inl (hframe'.trans hnone)
    · obtain hnone' | ⟨hframe', hreads', hrec'⟩ := h'
      · exact .inl hnone'
      · exact .inr ⟨hframe'.trans hframe, hreads'.trans hreads, hrec'.trans hrec⟩
  vars _ _ := .inr ⟨rfl, rfl, rfl⟩
  sent data e := by
    refine .inr ⟨rfl, rfl, ?_⟩
    change received (e.trace ++ [_]) = _
    rw [received_append]
    exact List.append_nil _

section Packets

variable {P : Platform} {sel : Nat → Nat} {id : Nat} {sons : List Composite} {e e' : Env}

theorem eval_takes (c : Composite) {s : State} (h : eval P sel c e = .ok (s, e')) : Takes e e' := by
  refine takes_rule.eval (fun _ hread => ?_) c h
  obtain ⟨_, _, _, _, _, _, _, _, _, rfl⟩ := readAction_ok hread
  exact .inl rfl

theorem evalSons_takes {ss : List State} (h : evalSons P sel sons e = .ok (ss, e')) :
    Takes e e' :=
  takes_rule.evalSons (fun c _ _ _ _ hrun => eval_takes c hrun) h

/-- The next packet of the socket. -/
def Env.next (e : Env) : ReadOutcome := e.reads.headD .timeout

/-- The sons in a round that ends see the packet of the round, and take none. -/
structure Round (P : Platform) (sel : Nat → Nat) (id : Nat) (sons : List Composite) (e : Env)
    (o : ReadOutcome) (result : List State) (e' : Env) : Prop where
  packet : o = e.next
  run : ∃ e₁ e₂, roundStart P id e = .ok (o, e₁) ∧ e₁.lastFrame = some (frameOf P id o) ∧
    evalSons P sel sons e₁ = .ok (result, e₂) ∧
    e' = { e₂ with lastFrame := some ((frameOf P id o).push result) }
  reads : e'.reads = e.reads.tail
  received : received e'.trace = received e.trace ++ [o]

theorem round_of_ok {o : ReadOutcome} {result : List State} {res : State}
    (h : readRound P id (evalSons P sel sons) e = .ok ((o, result, res), e')) :
    Round P sel id sons e o result e' ∧ res = (frameOf P id o).push result := by
  obtain ⟨e₁, e₂, frame, hstart, hrun, hframe, rfl, rfl⟩ := readRound_ok h
  obtain ⟨ho, he₁⟩ := roundStart_ok hstart
  have hlast : e₁.lastFrame = some (frameOf P id o) := by rw [he₁]
  obtain hnone | ⟨hsame, hreads, hrec⟩ := evalSons_takes hrun
  · rw [hnone] at hframe
    cases hframe
  · have hpushed : frame = frameOf P id o := by
      rw [hframe, hlast] at hsame
      exact Option.some.inj hsame
    subst hpushed
    refine ⟨⟨ho, ⟨e₁, e₂, hstart, hlast, hrun, rfl⟩, ?_, ?_⟩, rfl⟩
    · rw [show e₂.reads = e₁.reads from hreads, he₁]
    · rw [show received e₂.trace = received e₁.trace from hrec, he₁]
      change received (e.trace ++ [_]) = _
      rw [received_append]
      rfl

/-! ## The packets of a read -/

/-- The sons give `result` in a round with the packet `o`. -/
def Answers (P : Platform) (sel : Nat → Nat) (id : Nat) (sons : List Composite) (o : ReadOutcome)
    (result : List State) : Prop :=
  ∃ e e', e.lastFrame = some (frameOf P id o) ∧ evalSons P sel sons e = .ok (result, e')

/-- A packet that the loop goes on after: some son has failed on it. -/
def Rejected (P : Platform) (sel : Nat → Nat) (id : Nat) (sons : List Composite)
    (o : ReadOutcome) : Prop :=
  0 ≤ o.n ∧ ∃ result, Answers P sel id sons o result ∧ thereIsAFail result = true

theorem Round.answers {o : ReadOutcome} {result : List State}
    (hr : Round P sel id sons e o result e') : Answers P sel id sons o result := by
  obtain ⟨e₁, e₂, _, hlast, hrun, _⟩ := hr.run
  exact ⟨e₁, e₂, hlast, hrun⟩

/-- A packet that is no timeout was there. -/
theorem Round.reads_cons {o : ReadOutcome} {result : List State}
    (hr : Round P sel id sons e o result e') (hn : 0 ≤ o.n) : e.reads = o :: e'.reads := by
  rw [hr.reads]
  have hnext := hr.packet
  unfold Env.next at hnext
  cases hreads : e.reads with
  | nil =>
      rw [hreads] at hnext
      rw [hnext] at hn
      exact absurd hn (by decide)
  | cons o' rest =>
      rw [hreads] at hnext
      rw [hnext]
      rfl

/-- Rejected rounds take packets that are there. -/
theorem rejects_take (h : Relation.ReflTransGen (Rejects P id (evalSons P sel sons)) e e') :
    ∃ os, e.reads = os ++ e'.reads ∧ received e'.trace = received e.trace ++ os ∧
      ∀ o ∈ os, Rejected P sel id sons o := by
  induction h with
  | refl => exact ⟨[], rfl, (List.append_nil _).symm, nofun⟩
  | @tail e₁ e₂ _ hreject ih =>
      obtain ⟨os, hreads, hrec, hall⟩ := ih
      obtain ⟨o, result, res, hround, hgo⟩ := hreject
      obtain ⟨hr, _⟩ := round_of_ok hround
      rw [goesOn, Bool.and_eq_true, decide_eq_true_iff] at hgo
      have hcons := hr.reads_cons hgo.2
      refine ⟨os ++ [o], ?_, ?_, ?_⟩
      · rw [hreads, hcons, List.append_assoc]
        rfl
      · rw [hr.received, hrec, List.append_assoc]
      · intro o' ho'
        rw [List.mem_append, List.mem_singleton] at ho'
        cases ho' with
        | inl hold => exact hall o' hold
        | inr hnew => exact hnew ▸ ⟨hgo.2, result, hr.answers, hgo.1⟩

theorem returned_sons (P : Platform) (id : Nat) (o : ReadOutcome) (result : List State) :
    (let res := (frameOf P id o).push result
      if res.isFailValue then res else res.setPacketValue).sons = result := by
  have hsons : ((frameOf P id o).push result).sons = result := by
    rw [State.sons_push, (frameOf_unbound P id o).2, List.nil_append]
  dsimp only
  split
  · exact hsons
  · rw [State.setPacketValue, State.setStateValue_sons, hsons]

theorem returned_rawValue (P : Platform) (id : Nat) (o : ReadOutcome) (result : List State) :
    (let res := (frameOf P id o).push result
      if res.isFailValue then res else res.setPacketValue).data.rawValue =
        (frameOf P id o).data.rawValue := by
  dsimp only
  split
  · rw [State.data_push]
  · rw [State.setPacketValue, State.setStateValue_data, State.data_push]

/-- A frame has failed if and only if nothing has been delivered. -/
theorem returned_fails (P : Platform) (id : Nat) (o : ReadOutcome) (result : List State) :
    (let res := (frameOf P id o).push result
      if res.isFailValue then res else res.setPacketValue).isFailValue = false ↔ 0 < o.n := by
  by_cases hpos : 0 < o.n
  · refine iff_of_true ?_ hpos
    have hfail : ((frameOf P id o).push result).isFailValue = false := by
      rw [frameOf, if_pos hpos]
      rfl
    simp only [hfail]
    rfl
  · refine iff_of_false ?_ hpos
    have hfail : ((frameOf P id o).push result).isFailValue = true := by
      rw [frameOf, if_neg hpos]
      rfl
    simp only [hfail, if_true]
    exact Bool.noConfusion

/-- Only a read that has delivered something has bytes. -/
theorem frameOf_rawValue_pos {P : Platform} {id : Nat} {o : ReadOutcome} {data : Bytes}
    (h : (frameOf P id o).data.rawValue = some data) : 0 < o.n := by
  unfold frameOf at h
  split at h
  · assumption
  · cases h

/-- A read takes the packets of its socket up to the first one that no son fails on, or up
to a timeout, and no more.  The state it returns holds that packet with the results of the
sons for it, and every packet before has been rejected. -/
theorem read_takes {name : Bytes} {socket : Transport} {s : State}
    (hread : factoryAction sons = .readAction socket)
    (h : eval P sel (.node .composite id name sons) e = .ok (s, e')) :
    ∃ rejected o result, e.reads.take rejected.length = rejected ∧
      o = (e.reads.drop rejected.length).headD .timeout ∧
      e'.reads = e.reads.drop (rejected.length + 1) ∧
      received e'.trace = received e.trace ++ rejected ++ [o] ∧
      (∀ p ∈ rejected, Rejected P sel id sons p) ∧
      Answers P sel id sons o result ∧ (thereIsAFail result = false ∨ o.n < 0) ∧
      s.sons = result ∧ s.data.rawValue = (frameOf P id o).data.rawValue ∧
      (s.isFailValue = false ↔ 0 < o.n) := by
  rw [eval, strategyOf, hread] at h
  obtain ⟨e₁, o, result, res, e₂, hrejects, hround, hgo, rfl, rfl⟩ := readAction_ok h
  obtain ⟨rejected, hreads, hrec, hall⟩ := rejects_take hrejects
  obtain ⟨hr, hres⟩ := round_of_ok hround
  have hdrop : e.reads.drop rejected.length = e₁.reads := by rw [hreads, List.drop_left]
  refine ⟨rejected, o, result, by rw [hreads, List.take_left], ?_, ?_, ?_, hall, hr.answers,
    ?_, ?_, ?_, ?_⟩
  · rw [hdrop]
    exact hr.packet
  · rw [← List.tail_drop, hdrop]
    exact hr.reads
  · rw [← hrec]
    exact hr.received
  · rw [goesOn, Bool.and_eq_false_iff] at hgo
    refine hgo.imp_right fun hneg => ?_
    rw [decide_eq_false_iff_not] at hneg
    omega
  · rw [hres, returned_sons]
  · rw [hres, returned_rawValue]
  · rw [hres, returned_fails]

end Packets

/-! ## The loop ends -/

section Termination

/-- The computation never runs out of rounds. -/
abbrev InTime {α : Type} (m : EnvComp α) : Prop := Comp.Avoids Fault.outOfFuel m

theorem ends_ofExcept {α : Type} {x : Except Fault α} (h : x ≠ .error .outOfFuel) :
    InTime (ofExcept x) := by
  cases x with
  | ok a => exact .pure _
  | error y => exact .fault fun hy => h (congrArg Except.error hy)

theorem ends_argument (result : List State) (k : Nat) : InTime (argument result k) := by
  rw [argument]
  split
  · exact .pure _
  · exact .fault Fault.noConfusion

theorem getIntegerValue_ne_outOfFuel (s : State) : s.getIntegerValue ≠ .error .outOfFuel := by
  unfold State.getIntegerValue StateData.hexIntegerValue
  intro h
  split at h
  · split at h <;> cases h
  · split at h <;> cases h
  · cases h

theorem ends_integerArgument (result : List State) (k : Nat) :
    InTime (integerArgument result k) := by
  exact (ends_argument result k).bind fun s => ends_ofExcept (getIntegerValue_ne_outOfFuel s)

theorem ends_wireArgument (result : List State) (k : Nat) : InTime (wireArgument result k) :=
  (ends_argument result k).bind fun _ => .pure _

theorem ends_checkVariable (var : Bytes) : InTime (checkVariable var) := by
  intro e h
  cases h

theorem ends_getVariable (var : Bytes) : InTime (getVariable var) := by
  intro e h
  unfold getVariable at h
  split at h <;> cases h

theorem ends_setVariable (var : Bytes) (s : State) : InTime (setVariable var s) := by
  intro e h
  unfold setVariable at h
  split at h <;> cases h

theorem ends_getLastFrame : InTime getLastFrame := by
  intro e h
  unfold getLastFrame at h
  split at h <;> cases h

theorem ends_selectResult (value : Nat) (result : List State) :
    InTime (selectResult value result) := by
  intro e h
  unfold selectResult at h
  split at h <;> cases h

/-- A number in the range of `int`, or an overflow. -/
theorem ofRange_ne_outOfFuel {c : Prop} [Decidable c] {x : Except Fault Int}
    (h : x ≠ .error .outOfFuel) :
    (if c then x else .error .intOverflow) ≠ .error .outOfFuel := by
  split
  · exact h
  · exact fun h => Fault.noConfusion (Except.error.inj h)

theorem sumIntegers_ne_outOfFuel (acc : Int) (result : List State) :
    sumIntegers acc result ≠ .error .outOfFuel := by
  induction result generalizing acc with
  | nil =>
      intro h
      cases h
  | cons s result ih =>
      rw [sumIntegers]
      cases hs : s.getIntegerValue with
      | error x => exact fun h => getIntegerValue_ne_outOfFuel s (hs.trans h)
      | ok i => exact ofRange_ne_outOfFuel (ih _)

theorem wrmemcmp_ne_outOfFuel (first second : Bytes) (start : Int) (n : Nat) :
    wrmemcmp first second start n ≠ .error .outOfFuel := by
  induction n with
  | zero =>
      intro h
      cases h
  | succ n ih =>
      have hchar : ∀ (s : Bytes) (i : Int), charAt s i ≠ .error .outOfFuel := by
        intro s i h
        unfold charAt at h
        split at h <;> cases h
      rw [wrmemcmp]
      cases hrest : wrmemcmp first second start n with
      | error x => exact fun h => ih (hrest.trans h)
      | ok disequal =>
          cases ha : charAt first (start + n) with
          | error x =>
              exact fun h => hchar _ _ (ha.trans (congrArg Except.error (Except.error.inj h)))
          | ok a =>
              cases hb : charAt second n with
              | error x =>
                  exact fun h => hchar _ _ (hb.trans (congrArg Except.error (Except.error.inj h)))
              | ok b =>
                  intro h
                  cases h

theorem ends_finish (P : Platform) (id : Nat) (name : Bytes) (result : List State) (c : Command) :
    InTime (c.finish P id name result) := by
  cases c with
  | variableCommand =>
      refine (ends_argument result 1).bind fun s => (ends_checkVariable _).bind fun b => ?_
      cases b with
      | true => exact (ends_getVariable _).bind fun v => .pure _
      | false =>
          refine ends_getLastFrame.bind fun frame => (ends_integerArgument result 2).bind ?_
          refine fun start => (ends_integerArgument result 3).bind fun lenght => ?_
          cases frame.data.rawValue with
          | none => exact .fault Fault.noConfusion
          | some data =>
              exact .ite ((ends_setVariable _ _).bind fun res => .pure _)
                (.fault Fault.noConfusion)
  | additionCommand =>
      exact (ends_ofExcept (sumIntegers_ne_outOfFuel 0 result)).bind fun sum => .pure _
  | base64DecodeCommand => exact .pure _
  | base64EncodeCommand => exact .pure _
  | md5Command => exact .pure _
  | maskCheckCommand =>
      refine ends_getLastFrame.bind fun frame => ?_
      have hend : ∀ equal : Bool, InTime (if equal then
          (pure (((State.okState id).update (StateData.setStringValue name)).push result) :
            EnvComp State)
          else pure (((State.failState id).update (StateData.setStringValue
            (ascii "MaskCheck Fail"))).setFailValue.push result)) :=
        fun equal => .ite (.pure _) (.pure _)
      refine .ite ?_ ((Comp.Avoids.pure true).bind hend)
      exact (ends_wireArgument result 1).bind fun mask => (ends_wireArgument result 2).bind
        fun value => (Comp.Avoids.pure _).bind hend
  | valueCheckCommand =>
      refine ends_getLastFrame.bind fun frame => (ends_wireArgument result 1).bind fun start => ?_
      refine (ends_wireArgument result 2).bind fun size => (ends_wireArgument result 3).bind ?_
      exact fun expected => (ends_ofExcept (wrmemcmp_ne_outOfFuel _ _ _ _)).bind
        fun disequal => .ite (.pure _) (.pure _)
  | uPauseCommand => exact .ite ((ends_integerArgument result 1).bind fun usec => .pure _) (.pure _)
  | lengthCommand =>
      refine .ite ?_ (.pure _)
      refine (ends_integerArgument result 2).bind fun size => (ends_wireArgument result 1).bind ?_
      exact fun value => .ite (.fault Fault.noConfusion) (.ite (.fault Fault.noConfusion) (.pure _))
  | stringLengthCommand =>
      exact .ite ((ends_wireArgument result 1).bind fun value => .pure _) (.pure _)
  | memorizeCommand =>
      refine (ends_argument result 1).bind fun s => (ends_checkVariable _).bind fun b => ?_
      cases b with
      | true => exact (ends_getVariable _).bind fun v => .pure _
      | false =>
          exact (ends_argument result 2).bind fun s => (ends_setVariable _ _).bind fun s' => .pure _
  | repeatCommand =>
      exact (ends_argument result 1).bind fun blob => (ends_integerArgument result 2).bind
        fun times => .pure _
  | ceilDivideCommand =>
      refine (ends_integerArgument result 1).bind fun n => (ends_integerArgument result 2).bind ?_
      have hok : ∀ q : Int, (.ok q : Except Fault Int) ≠ .error .outOfFuel := by
        intro q h
        cases h
      exact fun d =>
        (ends_ofExcept (ofRange_ne_outOfFuel (hok _))).bind fun res => .pure _

section

variable {P : Platform} {id : Nat} {name : Bytes} {all brk : EnvComp (List State)}

theorem ends_returnAction (hbrk : InTime brk) : InTime (returnAction id name brk) := by
  refine hbrk.bind fun result => ?_
  cases result.getLast? with
  | none => exact .fault Fault.noConfusion
  | some last => exact .pure _

theorem ends_repeatAction (hbrk : InTime brk) : InTime (repeatAction id name brk) := by
  have hruns : ∀ n, InTime (runTimes (returnAction id name brk) n) := by
    intro n
    induction n with
    | zero => exact .pure _
    | succ n ih => exact (ends_returnAction hbrk).bind fun s => ih.bind fun ss => .pure _
  exact (hruns _).bind fun _ => .pure _

theorem ends_sendAction (hall : InTime all) : InTime (sendAction id all) := by
  refine hall.bind fun result => .ite (.fault Fault.noConfusion) ?_
  rw [liftEnv_env]
  refine Comp.Avoids.bind ?_ fun n => .pure _
  intro e h
  cases h

theorem ends_readRound (hall : InTime all) : InTime (readRound P id all) := by
  have hstart : InTime (roundStart P id) := by
    refine Comp.Avoids.bind ?_ fun o => Comp.Avoids.bind ?_ fun res => .bind ?_ fun _ => .pure _
    · intro e h
      cases h
    · exact .ite (.ite (.pure _) (.fault Fault.noConfusion)) (.pure _)
    · intro e h
      cases h
  refine hstart.bind fun o => hall.bind fun result => Comp.Avoids.bind ?_ fun res => .pure _
  intro e h
  unfold pushLastFrame at h
  split at h <;> cases h

end

variable {P : Platform} {sel : Nat → Nat} {id : Nat} {sons : List Composite} {e e' : Env}

/-- A turn after which the loop goes on has taken a packet that was there, whatever its sons
have read. -/
theorem Round.length_reads {o : ReadOutcome} {result : List State}
    (hr : Round P sel id sons e o result e') (hgo : goesOn o result = true) :
    e.reads.length = e'.reads.length + 1 := by
  rw [goesOn, Bool.and_eq_true, decide_eq_true_iff] at hgo
  rw [hr.reads, List.length_tail]
  cases hreads : e.reads with
  | nil =>
      have hnone : o = .timeout := by rw [hr.packet, Env.next, hreads]; rfl
      rw [hnone] at hgo
      exact absurd hgo.2 (by decide)
  | cons o' rest => rfl

theorem readLoop_ends (hall : InTime (evalSons P sel sons)) {fuel : Nat}
    (hfuel : e.reads.length < fuel) :
    readLoop P id (evalSons P sel sons) fuel e ≠ .error .outOfFuel := by
  induction fuel generalizing e with
  | zero => exact absurd hfuel (Nat.not_lt_zero _)
  | succ fuel ih =>
      rw [readLoop_succ, Comp.bind_eq]
      cases hround : readRound P id (evalSons P sel sons) e with
      | error x =>
          exact fun h => ends_readRound hall e
            (hround.trans (congrArg Except.error (Except.error.inj h)))
      | ok p =>
          obtain ⟨⟨o, result, res⟩, e'⟩ := p
          simp only
          split
          · next hgo =>
              refine ih ?_
              have := (round_of_ok hround).1.length_reads hgo
              omega
          · intro h
            cases h

theorem ends_readAction (hall : InTime (evalSons P sel sons)) :
    InTime (readAction P id (evalSons P sel sons)) := by
  intro e
  have hfuel : liftEnv readFuel e = .ok (e.reads.length + 1, e) := rfl
  rw [readAction, Comp.bind_eq, hfuel]
  simp only
  rw [Comp.bind_eq]
  cases hloop : readLoop P id (evalSons P sel sons) (e.reads.length + 1) e with
  | error x => exact fun h => readLoop_ends hall (Nat.lt_succ_self _) (hloop.trans h)
  | ok p =>
      intro h
      cases h

theorem ends_evalSons {cs : List Composite} (h : ∀ c ∈ cs, InTime (eval P sel c)) :
    InTime (evalSons P sel cs) := by
  induction cs with
  | nil =>
      rw [evalSons]
      exact .pure _
  | cons c cs ih =>
      rw [evalSons]
      exact (h c List.mem_cons_self).bind fun s =>
        (ih fun d hd => h d (List.mem_cons_of_mem _ hd)).bind fun ss => .pure _

theorem ends_evalSonsReturn {cs : List Composite} (h : ∀ c ∈ cs, InTime (eval P sel c)) :
    InTime (evalSonsReturn P sel cs) := by
  induction cs with
  | nil =>
      rw [evalSonsReturn]
      exact .pure _
  | cons c cs ih =>
      rw [evalSonsReturn]
      refine (h c List.mem_cons_self).bind fun s => .ite (.pure _) ?_
      exact (ih fun d hd => h d (List.mem_cons_of_mem _ hd)).bind fun ss => .pure _

/-- Every run ends: each read needs no more turns than there are packets left, and one for
the timeout behind them, wherever the reads of a tree stand. -/
theorem eval_ends (P : Platform) (sel : Nat → Nat) (c : Composite) : InTime (eval P sel c) := by
  induction c using Composite.induction with
  | h c ih =>
      cases c with
      | leaf kind id name =>
          rw [eval]
          exact .pure _
      | node kind id name sons =>
          have hall : InTime (evalSons P sel sons) := ends_evalSons ih
          rw [eval]
          cases strategyOf kind sons with
          | returnAction => exact ends_returnAction (ends_evalSonsReturn ih)
          | repeatAction => exact ends_repeatAction (ends_evalSonsReturn ih)
          | injectAction n =>
              unfold runAction injectAction
              simp only [liftEnv_env, pure_bind]
              exact Comp.Avoids.bind hall fun result => ends_selectResult (sel id) result
          | sendAction socket => exact ends_sendAction hall
          | readAction socket => exact ends_readAction hall
          | command command =>
              unfold runAction commandActionOn
              simp only [liftEnv_env]
              refine Comp.Avoids.bind ?_ fun _ =>
                Comp.Avoids.bind hall fun result => ends_finish P id name result command
              unfold Command.usage
              split
              · exact .ite (.pure _) (.fault Fault.noConfusion)
              · exact .pure _

end Termination

/-! ## Masks -/

section Masks

variable {P : Platform} {sel : Nat → Nat} {id : Nat} {sons : List Composite}
  {accept : ReadOutcome → Bool} {e : Env}

/-- Sons that look at the packet alone, and fail on those that they do not accept. -/
def Decides (P : Platform) (sel : Nat → Nat) (id : Nat) (sons : List Composite)
    (accept : ReadOutcome → Bool) : Prop :=
  ∀ e o, e.lastFrame = some (frameOf P id o) → ∃ result,
    evalSons P sel sons e = .ok (result, e) ∧ thereIsAFail result = !accept o

/-- What the socket hands over when it says that it has read `n` bytes. -/
def ReadOutcome.Delivered (o : ReadOutcome) : Prop := o.n ≤ o.data.length

theorem timeout_delivered : ReadOutcome.timeout.Delivered :=
  (by decide : (-1 : Int) ≤ 0)

theorem readRound_decides (h : Decides P sel id sons accept) (hnext : e.next.Delivered) :
    ∃ result res e', readRound P id (evalSons P sel sons) e = .ok ((e.next, result, res), e') ∧
      thereIsAFail result = !accept e.next ∧ e'.reads = e.reads.tail := by
  have hreceive : receive P id e.next = pure (frameOf P id e.next) := by
    rw [receive, frameOf]
    split
    · exact if_pos hnext
    · rfl
  obtain ⟨e₁, hstart⟩ : ∃ e₁, roundStart P id e = .ok (e.next, e₁) := by
    have hread : socketRead e = .ok (e.next, { e with
        reads := e.reads.tail
        trace := e.trace ++ [.read e.next.n e.next.data] }) := rfl
    rw [roundStart, Comp.bind_eq, hread]
    simp only
    rw [hreceive]
    exact ⟨_, rfl⟩
  have hlast : e₁.lastFrame = some (frameOf P id e.next) := by
    rw [(roundStart_ok hstart).2]
  obtain ⟨result, hrun, hfail⟩ := h e₁ e.next hlast
  refine ⟨result, (frameOf P id e.next).push result,
    { e₁ with lastFrame := some ((frameOf P id e.next).push result) }, ?_, hfail, ?_⟩
  · rw [readRound, Comp.bind_eq, hstart]
    simp only
    rw [Comp.bind_eq, hrun]
    simp only
    rw [Comp.bind_eq, pushLastFrame, hlast]
    rfl
  · rw [(roundStart_ok hstart).2]

/-- The loop comes to an end, at the latest with a timeout after the last packet. -/
theorem readLoop_decides (h : Decides P sel id sons accept)
    (hdelivered : ∀ o ∈ e.reads, o.Delivered) (fuel : Nat) (hfuel : e.reads.length < fuel) :
    ∃ s e', readLoop P id (evalSons P sel sons) fuel e = .ok (s, e') := by
  induction fuel generalizing e with
  | zero => exact absurd hfuel (Nat.not_lt_zero _)
  | succ fuel ih =>
      have hnext : e.next.Delivered := by
        rw [Env.next]
        cases hreads : e.reads with
        | nil => exact timeout_delivered
        | cons o rest => exact hdelivered o (hreads ▸ List.mem_cons_self)
      obtain ⟨result, res, e', hround, _, hreads⟩ := readRound_decides h hnext
      rw [readLoop_succ, Comp.bind_eq, hround]
      simp only
      split
      · next hgo =>
          have hne : e.reads ≠ [] := by
            intro hnil
            rw [goesOn, Env.next, hnil, Bool.and_eq_true] at hgo
            exact absurd (of_decide_eq_true hgo.2) (by decide)
          refine ih (fun o ho => hdelivered o ?_) ?_
          · rw [hreads] at ho
            exact List.mem_of_mem_tail ho
          · rw [hreads, List.length_tail]
            have := List.length_pos_of_ne_nil hne
            omega
      · exact ⟨_, _, rfl⟩

theorem readAction_decides (h : Decides P sel id sons accept)
    (hdelivered : ∀ o ∈ e.reads, o.Delivered) :
    ∃ s e', readAction P id (evalSons P sel sons) e = .ok (s, e') := by
  obtain ⟨s, e', hloop⟩ := readLoop_decides h hdelivered (e.reads.length + 1) (Nat.lt_succ_self _)
  have hfuel : liftEnv readFuel e = .ok (e.reads.length + 1, e) := rfl
  rw [readAction, Comp.bind_eq, hfuel]
  simp only
  rw [Comp.bind_eq, hloop]
  exact ⟨_, _, rfl⟩

theorem frameOf_raw (P : Platform) (id : Nat) (o : ReadOutcome) :
    (frameOf P id o).data.rawValue = if 0 < o.n then some (o.data.take o.n.toNat) else none := by
  rw [frameOf]
  split <;> rfl

/-- The bytes of a frame are those that have been delivered. -/
theorem frameOf_wire (P : Platform) (id : Nat) (o : ReadOutcome) :
    (frameOf P id o).getStringToSend = o.data.take o.n.toNat := by
  rw [State.getStringToSend_eq]
  have hcls : (frameOf P id o).data.cls = .readPacket := by
    unfold frameOf
    split <;> rfl
  rw [hcls]
  change (frameOf P id o).data.raw = _
  rw [StateData.raw, frameOf_raw]
  split
  · rfl
  · next hneg =>
      rw [Int.toNat_of_nonpos (by omega)]
      rfl

/-- Bytes that agree with a value where a mask has bits, as far as all three go. -/
def Agree (mask value data : Bytes) : Prop :=
  ∀ t ∈ data.zip (mask.zip value), t.1 &&& t.2.1 = t.2.2 &&& t.2.1

instance (mask value data : Bytes) : Decidable (Agree mask value data) :=
  List.decidableBAll _ _

theorem maskEqual_iff (n : Nat) (data mask value : Bytes) :
    maskEqual n data mask value = true ↔
      ∀ t ∈ (data.zip (mask.zip value)).take n, t.1 &&& t.2.1 = t.2.2 &&& t.2.1 := by
  induction n generalizing data mask value with
  | zero => simp [maskEqual]
  | succ n ih =>
      cases data with
      | nil => simp [maskEqual]
      | cons b data =>
          cases mask with
          | nil => simp [maskEqual]
          | cons m mask =>
              cases value with
              | nil => simp [maskEqual]
              | cons v value =>
                  rw [maskEqual, Bool.and_eq_true, beq_iff_eq, ih, List.zip_cons_cons,
                    List.zip_cons_cons, List.take_succ_cons, List.forall_mem_cons]

theorem maskEqual_iff_agree (data mask value : Bytes) :
    maskEqual (min (min data.length mask.length) value.length) data mask value = true ↔
      Agree mask value data := by
  rw [maskEqual_iff, Agree, List.take_of_length_le]
  rw [List.length_zip, List.length_zip]
  omega

/-- The check of a frame fails unless its bytes agree with the arguments. -/
theorem runMaskCheck_accepts (checkId : Nat) (name : Bytes) (lead m v : State) {o : ReadOutcome}
    (hlast : e.lastFrame = some (frameOf P id o)) :
    ∃ s, runMaskCheck checkId name [lead, m, v] e = .ok (s, e) ∧ s.isFailValue =
      !decide (Agree m.getStringToSend v.getStringToSend (o.data.take o.n.toNat)) := by
  have hframe : getLastFrame e = .ok (frameOf P id o, e) := by rw [getLastFrame, hlast]
  rw [← frameOf_wire P id o]
  generalize frameOf P id o = frame at hframe
  have hmask : wireArgument [lead, m, v] 1 e = .ok (m.getStringToSend, e) := rfl
  have hvalue : wireArgument [lead, m, v] 2 e = .ok (v.getStringToSend, e) := rfl
  have hequal : maskEqual (min (min frame.getStringToSend.length m.getStringToSend.length)
      v.getStringToSend.length) frame.getStringToSend m.getStringToSend v.getStringToSend =
        decide (Agree m.getStringToSend v.getStringToSend frame.getStringToSend) := by
    rw [Bool.eq_iff_iff, maskEqual_iff_agree, decide_eq_true_iff]
  simp only [runMaskCheck, Comp.bind_eq, hframe, List.tail_cons, List.map_cons, List.map_nil,
    List.foldl_cons, List.foldl_nil]
  generalize min (min frame.getStringToSend.length m.getStringToSend.length)
    v.getStringToSend.length = n at hequal
  rw [← hequal]
  split
  · simp only [Comp.bind_eq, hmask, hvalue, Comp.pure_eq]
    cases maskEqual n frame.getStringToSend m.getStringToSend v.getStringToSend with
    | true => exact ⟨_, rfl, rfl⟩
    | false => exact ⟨_, rfl, rfl⟩
  · next hzero =>
      have hequal₀ : n = 0 := Nat.eq_zero_of_not_pos hzero
      subst hequal₀
      exact ⟨_, rfl, rfl⟩

/-- A `MaskCheck` node. -/
structure MaskCheck where
  id : Nat
  name : Bytes
  commandId : Nat
  mask : Composite
  value : Composite

namespace MaskCheck

def node (c : MaskCheck) : Composite :=
  .node .composite c.id c.name
    [.leaf .commandComposite c.commandId (ascii "<%MaskCheck%>"), c.mask, c.value]

/-- The arguments are data, in which the alternatives `sel` exist. -/
def Constant (sel : Nat → Nat) (c : MaskCheck) : Prop :=
  ∀ a, a = c.mask ∨ a = c.value → IsData a ∧
    (∀ d ∈ a.nodes, d.isLeaf = false → d.sons ≠ []) ∧
      ∀ d ∈ a.nodes, d.isOr = true → sel d.id < d.sons.length

/-- The packet agrees with the text of the value. -/
def accepts (sel : Nat → Nat) (c : MaskCheck) (o : ReadOutcome) : Bool :=
  decide (Agree (den readCount sel c.mask) (den readCount sel c.value) (o.data.take o.n.toNat))

theorem runs {c : MaskCheck} (hc : c.Constant sel) {o : ReadOutcome}
    (hlast : e.lastFrame = some (frameOf P id o)) :
    ∃ s, eval P sel c.node e = .ok (s, e) ∧ s.isFailValue = !c.accepts sel o := by
  obtain ⟨hmask, hmask₁, hmask₂⟩ := hc c.mask (.inl rfl)
  obtain ⟨hvalue, hvalue₁, hvalue₂⟩ := hc c.value (.inr rfl)
  obtain ⟨m, hm, hmsends⟩ := eval_data (P := P) c.mask hmask hmask₁ hmask₂ e
  obtain ⟨v, hv, hvsends⟩ := eval_data (P := P) c.value hvalue hvalue₁ hvalue₂ e
  have hrun : evalSons P sel [c.mask, c.value] e = .ok ([m, v], e) := by
    refine evalSons_cons_ok.mpr ⟨m, e, [v], hm, evalSons_cons_ok.mpr ⟨v, e, [], hv, ?_, rfl⟩, rfl⟩
    rw [evalSons]
    rfl
  have hcheck := runMaskCheck_accepts c.id c.name (State.okState c.commandId) m v hlast
  rw [hmsends.wire, hvsends.wire] at hcheck
  obtain ⟨s, hs, hfail⟩ := hcheck
  exact ⟨s, (eval_command (c := .maskCheckCommand) rfl hrun rfl c.id c.commandId
    c.name).trans hs, hfail⟩

/-- The checks of a read accept the packets that all of them accept. -/
theorem decides {checks : List MaskCheck} (hall : ∀ c ∈ checks, c.Constant sel) :
    Decides P sel id (checks.map node) fun o => checks.all fun c => c.accepts sel o := by
  intro e o hlast
  induction checks with
  | nil =>
      refine ⟨[], ?_, rfl⟩
      rw [List.map_nil, evalSons]
      rfl
  | cons c checks ih =>
      obtain ⟨s, hs, hfail⟩ := runs (hall c List.mem_cons_self) hlast
      obtain ⟨result, hresult, hfails⟩ := ih fun d hd => hall d (List.mem_cons_of_mem _ hd)
      refine ⟨s :: result, evalSons_cons_ok.mpr ⟨s, e, result, hs, hresult, rfl⟩, ?_⟩
      rw [thereIsAFail, List.any_cons, hfail, ← thereIsAFail, hfails]
      dsimp only
      rw [List.all_cons, Bool.not_and]

end MaskCheck

theorem Decides.command (h : Decides P sel id sons accept) (commandId : Nat) (command : Bytes) :
    Decides P sel id (.leaf .commandComposite commandId command :: sons) accept := by
  intro e o hlast
  obtain ⟨result, hrun, hfail⟩ := h e o hlast
  refine ⟨State.okState commandId :: result,
    evalSons_cons_ok.mpr ⟨_, e, result, by rw [eval]; rfl, hrun, rfl⟩, ?_⟩
  rw [thereIsAFail, List.any_cons, ← thereIsAFail, hfail]
  rfl

theorem Decides.answers (h : Decides P sel id sons accept) {o : ReadOutcome} {result : List State}
    (ha : Answers P sel id sons o result) : thereIsAFail result = !accept o := by
  obtain ⟨e, e', hlast, hrun⟩ := ha
  obtain ⟨result', hrun', hfail⟩ := h e o hlast
  rw [hrun] at hrun'
  cases hrun'
  exact hfail

/-- A packet that is rejected is not acceptable. -/
theorem Decides.rejected (h : Decides P sel id sons accept) {o : ReadOutcome}
    (hr : Rejected P sel id sons o) : (accept o || decide (o.n < 0)) = false := by
  obtain ⟨hn, result, hanswers, hfail⟩ := hr
  rw [h.answers hanswers, Bool.not_eq_true'] at hfail
  rw [Bool.or_eq_false_iff, decide_eq_false_iff_not, Int.not_lt]
  exact ⟨hfail, hn⟩

/-- How many packets of `reads` come before the first one that is acceptable. -/
def skipped (accept : ReadOutcome → Bool) (reads : List ReadOutcome) : Nat :=
  reads.findIdx fun o => accept o || decide (o.n < 0)

/-- A prefix without acceptable packets that ends before an acceptable one, or before the
end. -/
theorem skipped_eq {reads rejected : List ReadOutcome}
    (htake : reads.take rejected.length = rejected)
    (hall : ∀ p ∈ rejected, (accept p || decide (p.n < 0)) = false)
    (hnext : ∀ o rest, reads.drop rejected.length = o :: rest →
      (accept o || decide (o.n < 0)) = true) : rejected.length = skipped accept reads := by
  have hsplit : reads = rejected ++ reads.drop rejected.length := by
    conv_lhs => rw [← List.take_append_drop rejected.length reads, htake]
  have hnone : rejected.findIdx (fun o => accept o || decide (o.n < 0)) = rejected.length :=
    List.findIdx_eq_length_of_false hall
  rw [skipped, hsplit, List.findIdx_append, hnone, if_neg (Nat.lt_irrefl _)]
  cases hrest : reads.drop rejected.length with
  | nil => exact (Nat.zero_add _).symm
  | cons o rest =>
      rw [List.findIdx_cons, hnext o rest hrest]
      exact (Nat.zero_add _).symm

/-- The state of a read holds the packet, or has failed if there is none. -/
structure Returns (o : ReadOutcome) (s : State) : Prop where
  bytes : s.data.rawValue = if 0 < o.n then some (o.data.take o.n.toNat) else none
  failed : s.isFailValue = false ↔ 0 < o.n

/-- A read whose sons look at the packet alone comes to an end, and returns the first packet
that they accept. -/
theorem read_decides (h : Decides P sel id sons accept) {socket : Transport}
    (hread : factoryAction sons = .readAction socket)
    (hdelivered : ∀ o ∈ e.reads, o.Delivered) (name : Bytes) :
    ∃ s e', eval P sel (.node .composite id name sons) e = .ok (s, e') ∧
      e'.reads = e.reads.drop (skipped accept e.reads + 1) ∧
      received e'.trace = received e.trace ++ e.reads.take (skipped accept e.reads) ++
        [e.reads.getD (skipped accept e.reads) .timeout] ∧
      Returns (e.reads.getD (skipped accept e.reads) .timeout) s := by
  obtain ⟨s, e', hrun⟩ := readAction_decides h hdelivered
  have heval : eval P sel (.node .composite id name sons) e = .ok (s, e') := by
    rw [eval, strategyOf, hread]
    exact hrun
  obtain ⟨rejected, o, result, htake, ho, hreads, hrec, hall, hanswers, hend, _, hraw, hfailed⟩ :=
    read_takes hread heval
  have hskip : rejected.length = skipped accept e.reads := by
    refine skipped_eq htake (fun p hp => h.rejected (hall p hp)) ?_
    intro o' rest hdrop
    rw [hdrop, List.headD_cons] at ho
    subst ho
    rw [h.answers hanswers, Bool.not_eq_false'] at hend
    rw [Bool.or_eq_true, decide_eq_true_iff]
    exact hend
  have hpacket : e.reads.getD (skipped accept e.reads) .timeout = o := by
    rw [ho, ← hskip, List.headD_eq_head?_getD, List.head?_drop, List.getD_eq_getElem?_getD]
  rw [hpacket, ← hskip, htake]
  exact ⟨s, e', heval, hreads, hrec, hraw.trans (frameOf_raw P id o), hfailed⟩

/-- A read with mask checks comes to an end.  It drops the packets of its socket up to the
first one whose bytes agree with all the masks and values, as far as packet, mask and value
go, and returns that packet.  If there is none it fails with a timeout. -/
theorem masked_read_takes_first {checks : List MaskCheck} (hall : ∀ c ∈ checks, c.Constant sel)
    {command : Bytes} {socket : Transport} (hread : commandAction command = .readAction socket)
    (hdelivered : ∀ o ∈ e.reads, o.Delivered) (commandId : Nat) (name : Bytes) :
    let accept := fun o => checks.all fun c => c.accepts sel o
    let packet := e.reads.getD (skipped accept e.reads) .timeout
    ∃ s e', eval P sel (.node .composite id name
        (.leaf .commandComposite commandId command :: checks.map MaskCheck.node)) e = .ok (s, e') ∧
      e'.reads = e.reads.drop (skipped accept e.reads + 1) ∧
      received e'.trace = received e.trace ++ e.reads.take (skipped accept e.reads) ++ [packet] ∧
      Returns packet s :=
  read_decides ((MaskCheck.decides hall).command commandId command) hread hdelivered name

/-- `<%MaskCheck%> %xf0 %x47`. -/
def upperHalf : MaskCheck where
  id := 2
  name := ascii "check"
  commandId := 3
  mask := .leaf .hexLeaf 4 (ascii "%xf0")
  value := .leaf .hexLeaf 5 (ascii "%x47")

theorem upperHalf_constant : upperHalf.Constant fun _ => 0 := by
  intro a ha
  obtain rfl | rfl := ha
  · exact ⟨.hexval (ascii "f0") (List.all_eq_true.mp rfl) rfl, by decide, by decide⟩
  · exact ⟨.hexval (ascii "47") (List.all_eq_true.mp rfl) rfl, by decide, by decide⟩

/-- The second of the packets `%x37`, `%x4a` and `%x4b` is the first that agrees. -/
theorem masked_read_takes_second : ∃ s e',
    eval ⟨fun b => b, 0⟩ (fun _ => 0) (.node .composite 0 (ascii "r")
        [.leaf .commandComposite 1 (ascii "<%UDP_read%>"), upperHalf.node])
        { reads := [⟨1, [0x37]⟩, ⟨1, [0x4a]⟩, ⟨1, [0x4b]⟩] } = .ok (s, e') ∧
      e'.reads = [⟨1, [0x4b]⟩] ∧ received e'.trace = [⟨1, [0x37]⟩, ⟨1, [0x4a]⟩] ∧
      Returns ⟨1, [0x4a]⟩ s :=
  have hall : ∀ c ∈ [upperHalf], c.Constant fun _ => 0 :=
    fun _ hc => List.mem_singleton.mp hc ▸ upperHalf_constant
  have hread : commandAction (ascii "<%UDP_read%>") = .readAction .udp := rfl
  masked_read_takes_first (P := ⟨fun b => b, 0⟩)
    (e := { reads := [⟨1, [0x37]⟩, ⟨1, [0x4a]⟩, ⟨1, [0x4b]⟩] }) hall hread
    (by
      intro o ho
      simp only [List.mem_cons, List.not_mem_nil, or_false] at ho
      obtain rfl | rfl | rfl := ho <;> exact (by decide : (1 : Int) ≤ 1)) 1 (ascii "r")

end Masks

/-! ## Captures -/

section Captures

variable {P : Platform} {sel : Nat → Nat} {id : Nat} {name : Bytes} {sons : List Composite}
  {e e' : Env} {d : Composite} {var : Bytes}

/-- A `Variable` node whose first argument names `var`. -/
structure VariableNode (P : Platform) (sel : Nat → Nat) (var : Bytes) (d : Composite) : Prop where
  command : ∃ id name sons, d = .node .composite id name sons ∧
    factoryAction sons = .command .variableCommand
  names : ∀ e result e', evalSons P sel d.sons e = .ok (result, e') → Names result var

/-- A run of the node from `e` captures `lenght` bytes of `data` from `start` on. -/
def CapturesFrom (P : Platform) (sel : Nat → Nat) (d : Composite) (e : Env) (var data : Bytes)
    (start lenght : Nat) : Prop :=
  ∃ result e₁, evalSons P sel d.sons e = .ok (result, e₁) ∧ Captures result e₁ var data start lenght

theorem VariableNode.eval_ok (hd : VariableNode P sel var d) {s : State}
    (h : eval P sel d e = .ok (s, e')) : ∃ id result e₁,
      evalSons P sel d.sons e = .ok (result, e₁) ∧ Names result var ∧
        runVariable P id result e₁ = .ok (s, e') := by
  obtain ⟨id, name, sons, rfl, hcommand⟩ := hd.command
  rw [eval, strategyOf, hcommand] at h
  obtain ⟨_, result, e₁, hrun, hfinish⟩ := commandActionOn_ok h
  exact ⟨id, result, e₁, hrun, hd.names _ _ _ hrun, hfinish⟩

theorem Names.unique {result : List State} {var' : Bytes} (h : Names result var)
    (h' : Names result var') : var = var' := by
  obtain ⟨t, ht, rfl⟩ := h
  obtain ⟨t', ht', rfl⟩ := h'
  rw [ht] at ht'
  cases ht'
  rfl

theorem Env.view_eq_some_none : e.view var = some none ↔ e.vars.lookup var = some .dangling := by
  rw [Env.view]
  cases e.vars.lookup var with
  | none => simp
  | some b => cases b <;> simp [Binding.bytes]

/-- A variable whose state is gone stays that way in every run. -/
theorem Touches.gone {ws : List (Bytes × Bytes)} (h : Touches e ws e')
    (hgone : e.view var = some none) : e'.view var = some none := by
  obtain hkept | ⟨_, hdangling⟩ := h.kept var (by rw [hgone]; rfl)
  · rw [hkept, hgone]
  · exact hdangling

/-- The head of a round deletes the states that the last frame holds. -/
theorem roundStart_gone {o : ReadOutcome} (h : roundStart P id e = .ok (o, e'))
    (hmem : var ∈ e.frameNames) (hbound : (e.view var).isSome) : e'.view var = some none := by
  rw [(roundStart_ok h).2]
  change e.dropFrame.view var = _
  rw [Env.view_dropFrame, if_pos hmem]
  obtain ⟨b, hb⟩ := Option.isSome_iff_exists.mp hbound
  rw [hb]
  rfl

/-- The run of a `Variable` whose state has been deleted does not come to an end. -/
theorem VariableNode.not_gone (hd : VariableNode P sel var d) {s : State}
    (h : eval P sel d e = .ok (s, e')) : e.view var ≠ some none := by
  intro hgone
  obtain ⟨id, result, e₁, hrun, hnames, hvariable⟩ := hd.eval_ok h
  have hgone₁ : e₁.view var = some none :=
    (evalSons_effect hrun).toTouches.gone hgone
  rw [Env.view_eq_some_none] at hgone₁
  obtain ⟨var', v, hnames', hlive, _⟩ | ⟨var', _, _, _, hcap, _⟩ := runVariable_ok hvariable
  · rw [← hnames.unique hnames', hgone₁] at hlive
    cases hlive
  · have hnone := hcap.unbound
    rw [← hnames.unique hcap.name, hgone₁] at hnone
    cases hnone

theorem Captures.unique {result : List State} {data data' : Bytes}
    {start lenght start' lenght' : Nat} (h : Captures result e var data start lenght)
    (h' : Captures result e var data' start' lenght') :
    data' = data ∧ start' = start ∧ lenght' = lenght := by
  obtain ⟨f, hf, hdata⟩ := h.frame
  obtain ⟨f', hf', hdata'⟩ := h'.frame
  obtain ⟨t, ht, hstart⟩ := h.offset
  obtain ⟨t', ht', hstart'⟩ := h'.offset
  obtain ⟨u, hu, hlenght⟩ := h.size
  obtain ⟨u', hu', hlenght'⟩ := h'.size
  rw [hf] at hf'
  rw [ht] at ht'
  rw [hu] at hu'
  cases hf'
  cases ht'
  cases hu'
  rw [hdata] at hdata'
  rw [hstart] at hstart'
  rw [hlenght] at hlenght'
  cases hdata'
  cases hstart'
  cases hlenght'
  exact ⟨rfl, rfl, rfl⟩

theorem getStringToSend_capturedState (P : Platform) (id : Nat) (var data : Bytes)
    (start lenght : Nat) :
    (capturedState P id var data start lenght).getStringToSend =
      (data.drop start).take lenght := by
  rw [capturedState, State.getStringToSend_bind, State.getStringToSend_eq]
  rfl

/-- A `Variable` that captures returns the state that it binds, with the results of its
sons. -/
theorem CapturesFrom.eval_ok {s : State} {data : Bytes} {start lenght : Nat}
    (hcommand : factoryAction sons = .command .variableCommand)
    (hcap : CapturesFrom P sel (.node .composite id name sons) e var data start lenght)
    (h : eval P sel (.node .composite id name sons) e = .ok (s, e')) : ∃ result e₁,
      evalSons P sel sons e = .ok (result, e₁) ∧ Captures result e₁ var data start lenght ∧
      e' = { e₁ with vars := (var, .live (capturedState P id var data start lenght)) :: e₁.vars } ∧
      s = (capturedState P id var data start lenght).push result := by
  rw [eval, strategyOf, hcommand] at h
  obtain ⟨_, result, e₁, hrun, hvariable⟩ := commandActionOn_ok h
  obtain ⟨result', e₁', hrun', hcap⟩ := hcap
  rw [show evalSons P sel sons e = .ok (result', e₁') from hrun'] at hrun
  cases hrun
  refine ⟨result, e₁, hrun', hcap, ?_⟩
  obtain ⟨var', v, hnames, hlive, _⟩ | ⟨var', data', start', lenght', hcap', rfl, rfl⟩ :=
    runVariable_ok hvariable
  · rw [← hcap.name.unique hnames, hcap.unbound] at hlive
    cases hlive
  · cases hcap.name.unique hcap'.name
    obtain ⟨rfl, rfl, rfl⟩ := hcap.unique hcap'
    exact ⟨rfl, rfl⟩

/-- The variable of a capture stands for the bytes captured. -/
theorem view_captured (P : Platform) (id : Nat) (var data : Bytes) (start lenght : Nat) (e : Env) :
    Env.view { e with vars := (var, .live (capturedState P id var data start lenght)) :: e.vars }
      var = some (some ((data.drop start).take lenght)) := by
  rw [Env.view, List.lookup_cons, beq_self_eq_true]
  change some (some (capturedState P id var data start lenght).getStringToSend) = _
  rw [getStringToSend_capturedState]

/-- What a capture returns and binds. -/
theorem VariableNode.capture (hd : VariableNode P sel var d) {s : State} {data : Bytes}
    {start lenght : Nat} (hcap : CapturesFrom P sel d e var data start lenght)
    (h : eval P sel d e = .ok (s, e')) :
    var ∈ s.boundNames ∧ e'.view var = some (some ((data.drop start).take lenght)) ∧
      ∃ f, e'.lastFrame = some f ∧ f.data.rawValue = some data := by
  obtain ⟨id, name, sons, rfl, hcommand⟩ := hd.command
  obtain ⟨result, e₁, _, hcap, rfl, rfl⟩ := hcap.eval_ok hcommand h
  refine ⟨?_, view_captured P id var data start lenght e₁, hcap.frame⟩
  rw [State.boundNames_push]
  exact List.mem_append_left _ List.mem_cons_self

/-- A round in which a variable has been captured leaves the variable in its frame, with
the bytes of the capture. -/
theorem Round.capture {o : ReadOutcome} {result : List State}
    (hr : Round P sel id sons e o result e') {e₁ ed : Env} {i : Nat} {data : Bytes}
    {start lenght : Nat} (hstart : roundStart P id e = .ok (o, e₁))
    (hreach : ReachesAll P sel sons e₁ i d ed) (hd : VariableNode P sel var d)
    (hcap : CapturesFrom P sel d ed var data start lenght) :
    var ∈ e'.frameNames ∧ e'.view var = some (some ((data.drop start).take lenght)) ∧
      (frameOf P id o).data.rawValue = some data := by
  obtain ⟨e₁', e₂, hstart', hlast, hrun, rfl⟩ := hr.run
  rw [hstart] at hstart'
  cases hstart'
  obtain ⟨pre, post, ss₁, s, ed', ss₂, rfl, _, hpre, hs, hpost, rfl⟩ := hreach.ok hrun
  obtain ⟨hbound, hview, f, hf, hdata⟩ := hd.capture hcap hs
  have hframe : ed'.lastFrame = some (frameOf P id o) := by
    obtain hnone | ⟨hsame, _, _⟩ := takes_rule.trans (evalSons_takes hpre) (eval_takes d hs)
    · rw [hnone] at hf
      cases hf
    · rw [hsame, hlast]
  rw [hframe] at hf
  cases hf
  refine ⟨?_, ?_, hdata⟩
  · change var ∈ ((frameOf P id o).push (ss₁ ++ s :: ss₂)).boundNames
    rw [State.boundNames_eq, State.sons_push, List.flatMap_append, List.flatMap_append,
      List.flatMap_cons]
    simp [hbound]
  · have htouch := (evalSons_effect hpost).toTouches
    have hunbound : var ∉ ed'.frameNames := by
      rw [Env.frameNames, hframe]
      obtain ⟨hnames, hsons⟩ := frameOf_unbound P id o
      simp [State.boundNames_eq, hnames, hsons]
    obtain hkept | ⟨hmem, _⟩ := htouch.kept var (by rw [hview]; rfl)
    · exact hkept.trans hview
    · exact absurd hmem hunbound

/-- A read with a son that captures a variable in the first round ends only when that round
accepts its packet.  In any other case the next round uses the state that the variable
pointed to, which has been deleted.  So the state returned holds the first packet, and the
variable stands for bytes of it. -/
theorem capture_takes_first {socket : Transport} {s : State} {o : ReadOutcome} {e₁ ed : Env}
    {i : Nat} {data : Bytes} {start lenght : Nat}
    (hread : factoryAction sons = .readAction socket)
    (h : eval P sel (.node .composite id name sons) e = .ok (s, e'))
    (hstart : roundStart P id e = .ok (o, e₁)) (hreach : ReachesAll P sel sons e₁ i d ed)
    (hd : VariableNode P sel var d) (hcap : CapturesFrom P sel d ed var data start lenght) :
    e'.reads = e.reads.tail ∧ received e'.trace = received e.trace ++ [o] ∧
      thereIsAFail s.sons = false ∧ s.data.rawValue = some data ∧
      e'.view var = some (some ((data.drop start).take lenght)) := by
  rw [eval, strategyOf, hread] at h
  obtain ⟨e₂, o', result, res, e₃, hrejects, hround, hgo, rfl, rfl⟩ := readAction_ok h
  obtain hfirst | ⟨e₄, hreject, hmore⟩ := hrejects.cases_head
  · subst hfirst
    obtain ⟨hr, rfl⟩ := round_of_ok hround
    have ho : o' = o := by rw [hr.packet, (roundStart_ok hstart).1]; rfl
    subst ho
    obtain ⟨_, hview, hdata⟩ := hr.capture hstart hreach hd hcap
    have hpos : 0 < o'.n := frameOf_rawValue_pos hdata
    have haccepts : thereIsAFail result = false := by
      rw [goesOn, decide_eq_true (le_of_lt hpos), Bool.and_true] at hgo
      exact hgo
    refine ⟨hr.reads, hr.received, ?_, ?_, hview⟩
    · rw [returned_sons, haccepts]
    · rw [returned_rawValue, hdata]
  · exfalso
    obtain ⟨o₁, result₁, res₁, hround₁, _⟩ := hreject
    obtain ⟨hr, _⟩ := round_of_ok hround₁
    have ho : o₁ = o := by rw [hr.packet, (roundStart_ok hstart).1]; rfl
    subst ho
    obtain ⟨hnames, hview, _⟩ := hr.capture hstart hreach hd hcap
    -- The next round, which comes to an end too.
    obtain ⟨o₂, result₂, res₂, e₅, hround₂⟩ : ∃ o₂ result₂ res₂ e₅,
        readRound P id (evalSons P sel sons) e₄ = .ok ((o₂, result₂, res₂), e₅) := by
      obtain hlast | ⟨e₅, ⟨o₂, result₂, res₂, hround₂, _⟩, _⟩ := hmore.cases_head
      · exact ⟨_, _, _, _, hlast ▸ hround⟩
      · exact ⟨o₂, result₂, res₂, e₅, hround₂⟩
    obtain ⟨e₆, e₇, _, hstart₂, hrun₂, _⟩ := readRound_ok hround₂
    have hgone : e₆.view var = some none :=
      roundStart_gone hstart₂ hnames (by rw [hview]; rfl)
    obtain ⟨pre, post, _, rfl, _, _⟩ := hreach
    obtain ⟨ss₁, e₈, _, hpre, hrest, _⟩ := evalSons_append_ok.mp hrun₂
    obtain ⟨s', e₉, _, hs, _, _⟩ := evalSons_cons_ok.mp hrest
    have htouch := (evalSons_effect hpre).toTouches
    exact hd.not_gone hs (htouch.gone hgone)

/-- The grammar `r = <%UDP_read%> c`, `c = <%Variable%> "v" %d0 %d1`. -/
def captureNode : Composite := .node .composite 2 (ascii "c")
  [.leaf .commandComposite 3 (ascii "<%Variable%>"), .leaf .stringLeaf 4 (ascii "\\\"v\\\""),
   .leaf .decLeaf 5 (ascii "%d0"), .leaf .decLeaf 6 (ascii "%d1")]

def captureSons : List Composite :=
  [.leaf .commandComposite 1 (ascii "<%UDP_read%>"), captureNode]

theorem captureNode_names (P : Platform) (sel : Nat → Nat) :
    VariableNode P sel (ascii "v") captureNode where
  command := ⟨2, ascii "c", _, rfl, rfl⟩
  names e result e' h := by
    obtain ⟨s, e₁, ss, hs, hss, rfl⟩ := evalSons_cons_ok.mp h
    obtain ⟨s', e₂, ss', hs', _, rfl⟩ := evalSons_cons_ok.mp hss
    rw [eval, Comp.pure_ok] at hs'
    exact ⟨s', rfl, by rw [hs'.1]; rfl⟩

theorem capture_takes_first_one : ∃ s e',
    eval ⟨fun b => b, 0⟩ (fun _ => 0) (.node .composite 0 (ascii "r") captureSons)
        { reads := [⟨1, [7]⟩, ⟨1, [8]⟩] } = .ok (s, e') ∧
      e'.reads = [⟨1, [8]⟩] ∧ received e'.trace = [⟨1, [7]⟩] ∧ thereIsAFail s.sons = false ∧
      s.data.rawValue = some [7] ∧ e'.view (ascii "v") = some (some [7]) := by
  obtain ⟨s, e', hrun⟩ : ∃ s e', eval ⟨fun b => b, 0⟩ (fun _ => 0)
      (.node .composite 0 (ascii "r") captureSons) { reads := [⟨1, [7]⟩, ⟨1, [8]⟩] } =
        .ok (s, e') := ⟨_, _, rfl⟩
  have hread : factoryAction captureSons = .readAction .udp := rfl
  exact ⟨s, e', hrun, capture_takes_first hread hrun rfl
    ⟨[.leaf .commandComposite 1 (ascii "<%UDP_read%>")], [], _, rfl, rfl, rfl⟩
    (captureNode_names _ _)
    (⟨_, _, rfl, {
      name := ⟨_, rfl, rfl⟩
      unbound := rfl
      frame := ⟨_, rfl, rfl⟩
      offset := ⟨_, rfl, rfl⟩
      size := ⟨_, rfl, rfl⟩
      fits := by decide }⟩ :
      CapturesFrom ⟨fun b => b, 0⟩ (fun _ => 0) captureNode _ (ascii "v") [7] 0 1)⟩

end Captures

end Stress

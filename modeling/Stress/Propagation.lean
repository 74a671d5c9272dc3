import Stress.Effects

/-!
# What becomes of a failure

A failed send or read should fail every node around it and end the run.  The
last writer of the mark decides: a send ends in the packet mark whatever the
socket says, a repetition always returns an `OkState`, and an injector puts the
fault mark on its result.

`propagates_iff` says that a run handles its failures exactly when each of them
is the whole run, or a read around which there are only sequences.
-/

namespace Stress

section Paths

variable {P : Platform} {sel : Nat → Nat}

/-- Whether the result of the son at place `i` is one that the node passes on:
any son of a sequence or a repetition, and the selected one of an alternation. -/
def Passes (sel : Nat → Nat) : Composite → Nat → Prop
  | .node .composite _ _ sons, _ => factoryAction sons = .returnAction
  | .node .orComposite id _ _, i => i = sel id
  | .node .repeatComposite _ _ _, _ => True
  | .leaf _ _ _, _ => False

/-- The run of a node from `e` runs the node `x` from `e'` on its selected path,
inside the nodes `path`, from the outermost one. -/
inductive OnPath (P : Platform) (sel : Nat → Nat) :
    Composite → Env → List (Composite × Env) → Composite → Env → Prop where
  | here {c : Composite} {e : Env} : OnPath P sel c e [] c e
  | son {c d x : Composite} {e ed e' : Env} {i : Nat} {path : List (Composite × Env)}
      (h : RunsSon P sel c e i d ed) (hp : Passes sel c i) (hx : OnPath P sel d ed path x e') :
      OnPath P sel c e ((c, e) :: path) x e'

/-- A send that the socket refuses. -/
inductive SendFails (P : Platform) (sel : Nat → Nat) : Composite → Env → Prop where
  | intro {id : Nat} {name : Bytes} {sons : List Composite} {e e₁ : Env} {socket : Transport}
      {result : List State} (ha : factoryAction sons = .sendAction socket)
      (hrun : evalSons P sel sons e = .ok (result, e₁))
      (hn : e₁.sends.headD (dataToSend result).length < 0) :
      SendFails P sel (.node .composite id name sons) e

/-- A read that ends in the failing state. -/
inductive ReadFails (P : Platform) (sel : Nat → Nat) : Composite → Env → Prop where
  | intro {id : Nat} {name : Bytes} {sons : List Composite} {e e' : Env} {socket : Transport}
      {s : State} (ha : factoryAction sons = .readAction socket)
      (hrun : eval P sel (.node .composite id name sons) e = .ok (s, e'))
      (hfail : s.isFailValue = true) : ReadFails P sel (.node .composite id name sons) e

/-- A node that runs its sons with `ReturnAction`. -/
def IsSequence : Composite → Prop
  | .node .composite _ _ sons => factoryAction sons = .returnAction
  | _ => False

/-- The run of a node returns a failing state. -/
def ReturnsFail (P : Platform) (sel : Nat → Nat) (c : Composite) (e : Env) : Prop :=
  ∃ s e', eval P sel c e = .ok (s, e') ∧ s.isFailValue = true

/-- In the run of `c` from `e` to `e'` every failure on the selected path fails the
nodes around it, and no call comes after it. -/
def Propagates (P : Platform) (sel : Nat → Nat) (c : Composite) (e e' : Env) : Prop :=
  ∀ path x ex, OnPath P sel c e path x ex → SendFails P sel x ex ∨ ReadFails P sel x ex →
    (∀ a ∈ path, ReturnsFail P sel a.1 a.2) ∧
      ∃ s ex', eval P sel x ex = .ok (s, ex') ∧ e'.trace = ex'.trace

/-- A failure on the selected path is the run itself, or a read inside
sequences. -/
def FailsInSequences (P : Platform) (sel : Nat → Nat) (c : Composite) (e : Env) : Prop :=
  ∀ path x ex, OnPath P sel c e path x ex → SendFails P sel x ex ∨ ReadFails P sel x ex →
    path = [] ∨ (ReadFails P sel x ex ∧ ∀ a ∈ path, IsSequence a.1)

theorem OnPath.visits {c x : Composite} {e ex : Env} {path : List (Composite × Env)}
    (h : OnPath P sel c e path x ex) : Visits P sel c e x ex := by
  induction h with
  | here => exact .refl
  | son h _ _ ih => exact .son h ih

/-- The innermost node around `x`. -/
theorem OnPath.snoc {c x : Composite} {e ex : Env} {path : List (Composite × Env)}
    (h : OnPath P sel c e path x ex) : path = [] ∧ c = x ∧ e = ex ∨
      ∃ init p ep i, path = init ++ [(p, ep)] ∧ OnPath P sel c e init p ep ∧
        RunsSon P sel p ep i x ex ∧ Passes sel p i := by
  induction h with
  | here => exact .inl ⟨rfl, rfl, rfl⟩
  | @son c d x e ed e' i path h hp hx ih =>
      refine .inr ?_
      obtain ⟨rfl, rfl, rfl⟩ | ⟨init, p, ep, j, rfl, hinit, hson, hpass⟩ := ih
      · exact ⟨[], c, e, i, rfl, .here, h, hp⟩
      · exact ⟨(c, e) :: init, p, ep, j, rfl, .son h hp hinit, hson, hpass⟩

/-! ## Who fails -/

/-- Leaves do not fail. -/
theorem leafState_ok (kind : LeafKind) (id : Nat) (name : Bytes) :
    (leafState kind id name).isFailValue = false := by
  cases kind <;> rfl

/-- A repetition does not fail. -/
theorem repeatAction_ok_mark {id : Nat} {name : Bytes} {brk : EnvComp (List State)} {e e' : Env}
    {s : State} (h : repeatAction id name brk e = .ok (s, e')) : s.isFailValue = false := by
  obtain ⟨results, _, rfl⟩ := repeatAction_ok h
  rfl

/-- A selected result does not fail. -/
theorem selectResult_ok_mark {value : Nat} {result : List State} {e e' : Env} {s : State}
    (h : selectResult value result e = .ok (s, e')) : s.isFailValue = false := by
  obtain ⟨r, _, rfl, _⟩ := selectResult_ok h
  rw [State.isFailValue, State.stateValue_setName, State.setFaultValue, State.setStateValue_data]
  rfl

/-- A send does not fail. -/
theorem sendAction_ok_mark {id : Nat} {all : EnvComp (List State)} {e e' : Env} {s : State}
    (h : sendAction id all e = .ok (s, e')) : s.isFailValue = false := by
  obtain ⟨result, e₁, _, rfl, _⟩ := sendAction_ok h
  rw [sentState, State.isFailValue, State.setPacketValue, State.setStateValue_data]
  rfl

/-- A sequence fails with its last result. -/
theorem returnAction_fail {id : Nat} {name : Bytes} {brk : EnvComp (List State)} {e e' : Env}
    {s : State} (h : returnAction id name brk e = .ok (s, e')) :
    ∃ result last, brk e = .ok (result, e') ∧ result.getLast? = some last ∧
      s.isFailValue = last.isFailValue := by
  obtain ⟨result, last, hbrk, hlast, rfl⟩ := returnAction_ok h
  refine ⟨result, last, hbrk, hlast, ?_⟩
  cases hfail : last.isFailValue <;> rfl

/-- Among the nodes that pass results on only sequences fail. -/
theorem isSequence_of_fail {c : Composite} {e e' : Env} {s : State} {i : Nat}
    (hp : Passes sel c i) (hrun : eval P sel c e = .ok (s, e')) (hfail : s.isFailValue = true) :
    IsSequence c := by
  cases c with
  | leaf kind id name => exact hp.elim
  | node kind id name sons =>
      rw [eval] at hrun
      cases kind with
      | composite => exact hp
      | orComposite =>
          obtain ⟨result, e₁, _, hselect⟩ := injectAction_ok hrun
          rw [selectResult_ok_mark hselect] at hfail
          cases hfail
      | repeatComposite =>
          rw [repeatAction_ok_mark hrun] at hfail
          cases hfail

/-! ## A failure without a frame is a call -/

theorem frame_of_effect {e e' : Env} {ws : List (Bytes × Bytes)} (he : Effect e ws e')
    (hframe : e.lastFrame = none) : e'.lastFrame = none := by
  cases he.frame with
  | inl heq => rw [heq, hframe]
  | inr hnone => exact hnone

theorem evalSonsReturn_fail_calls {cs : List Composite}
    (h : ∀ c ∈ cs, ∀ {e s e'}, eval P sel c e = .ok (s, e') → e.lastFrame = none →
      s.isFailValue = true → e.trace.length < e'.trace.length)
    {e e' : Env} {ss : List State} (hrun : evalSonsReturn P sel cs e = .ok (ss, e'))
    (hframe : e.lastFrame = none) {last : State} (hlast : ss.getLast? = some last)
    (hfail : last.isFailValue = true) : e.trace.length < e'.trace.length := by
  induction cs generalizing e ss with
  | nil =>
      rw [evalSonsReturn, Comp.pure_ok] at hrun
      rw [hrun.1] at hlast
      cases hlast
  | cons c cs ih =>
      obtain ⟨s, e₁, hs, hrest⟩ := evalSonsReturn_cons_ok.mp hrun
      split at hrest
      · next hsfail =>
          rw [hrest.2]
          exact h c List.mem_cons_self hs hframe hsfail
      · next hsok =>
          obtain ⟨ss', hss, rfl⟩ := hrest
          have hne : ss' ≠ [] := by
            rintro rfl
            rw [List.getLast?_singleton] at hlast
            cases hlast
            exact hsok hfail
          rw [List.getLast?_cons_of_ne_nil hne] at hlast
          have heffect := eval_effect c hs
          have hlater := ih (fun d hd => h d (List.mem_cons_of_mem _ hd)) hss
            (frame_of_effect heffect hframe) hlast
          exact Nat.lt_of_le_of_lt heffect.trace.length_le hlater

/-- Without a frame to check a run fails only after a read. -/
theorem fail_calls (c : Composite) {e e' : Env} {s : State} (hrun : eval P sel c e = .ok (s, e'))
    (hframe : e.lastFrame = none) (hfail : s.isFailValue = true) :
    e.trace.length < e'.trace.length := by
  induction c using Composite.induction generalizing e e' s with
  | h c ih =>
      cases c with
      | leaf kind id name =>
          rw [eval, Comp.pure_ok] at hrun
          rw [hrun.1, leafState_ok] at hfail
          cases hfail
      | node kind id name sons =>
          rw [eval] at hrun
          cases ha : strategyOf kind sons with
          | returnAction =>
              rw [ha, runAction] at hrun
              obtain ⟨result, last, hsons, hlast, heq⟩ := returnAction_fail hrun
              rw [heq] at hfail
              exact evalSonsReturn_fail_calls (fun d hd _ _ _ h => ih d hd h) hsons hframe hlast
                hfail
          | repeatAction =>
              rw [ha, runAction] at hrun
              rw [repeatAction_ok_mark hrun] at hfail
              cases hfail
          | injectAction n =>
              rw [ha, runAction] at hrun
              obtain ⟨result, e₁, _, hselect⟩ := injectAction_ok hrun
              rw [selectResult_ok_mark hselect] at hfail
              cases hfail
          | sendAction socket =>
              rw [ha, runAction] at hrun
              rw [sendAction_ok_mark hrun] at hfail
              cases hfail
          | readAction socket =>
              rw [ha, runAction] at hrun
              exact (readAction_effect evalSons_effect hrun).2
          | command k =>
              rw [ha, runAction] at hrun
              obtain ⟨_, result, e₁, hsons, hfinish⟩ := commandActionOn_ok hrun
              have hnone := frame_of_effect (evalSons_effect hsons) hframe
              by_cases hv : k = .variableCommand
              · subst hv
                obtain ⟨_, _, _, _, _, rfl⟩ | ⟨_, _, _, _, _, _, rfl⟩ := runVariable_ok hfinish
                · cases hfail
                · cases hfail
              · by_cases hm : k = .memorizeCommand
                · subst hm
                  obtain ⟨_, _, _, _, _, rfl⟩ | ⟨_, _, _, _, _, _, rfl⟩ := runMemorize_ok hfinish
                  · cases hfail
                  · cases hfail
                · have hsome := (finish_ok hv hm hfinish).2.fail hfail
                  rw [hnone] at hsome
                  cases hsome

/-! ## The way up -/

theorem OnPath.passes {c x : Composite} {e ex : Env} {path : List (Composite × Env)}
    (h : OnPath P sel c e path x ex) : ∀ a ∈ path, ∃ i, Passes sel a.1 i := by
  induction h with
  | here => nofun
  | son _ hp _ ih =>
      rw [List.forall_mem_cons]
      exact ⟨⟨_, hp⟩, ih⟩

/-- On the selected path there is no frame that was not there before. -/
theorem OnPath.frame {c x : Composite} {e ex : Env} {path : List (Composite × Env)}
    (h : OnPath P sel c e path x ex) (hframe : e.lastFrame = none) : ex.lastFrame = none := by
  have hall : ∀ {sons : List Composite} {e ed : Env} {i : Nat} {d : Composite},
      ReachesAll P sel sons e i d ed → e.lastFrame = none → ed.lastFrame = none := by
    rintro sons e ed i d ⟨pre, post, ss, _, _, hpre⟩ hframe
    exact frame_of_effect (evalSons_effect hpre) hframe
  have hbrk : ∀ {sons : List Composite} {e ed : Env} {i : Nat} {d : Composite},
      ReachesReturn P sel sons e i d ed → e.lastFrame = none → ed.lastFrame = none := by
    rintro sons e ed i d ⟨pre, post, ss, _, _, hpre, _⟩ hframe
    exact frame_of_effect (evalSonsReturn_effect hpre) hframe
  induction h with
  | here => exact hframe
  | son h hp _ ih =>
      refine ih ?_
      cases h with
      | sequence ha h => exact hbrk h hframe
      | send ha h =>
          rw [Passes, ha] at hp
          cases hp
      | command ha h =>
          rw [Passes, ha] at hp
          cases hp
      | read ha _ _ _ =>
          rw [Passes, ha] at hp
          cases hp
      | alternative h => exact hall h hframe
      | copy hk hcopies h =>
          have hcopy := runTimes_effect (returnAction_effect evalSonsReturn_effect) hcopies
          exact hbrk h (frame_of_effect hcopy hframe)

/-- A failure inside sequences fails them all and ends the run. -/
theorem fails_of_sequences {c x : Composite} {e ex e' ex' : Env} {path : List (Composite × Env)}
    {s sx : State} (h : OnPath P sel c e path x ex) (hseq : ∀ a ∈ path, IsSequence a.1)
    (hx : eval P sel x ex = .ok (sx, ex')) (hfail : sx.isFailValue = true)
    (hrun : eval P sel c e = .ok (s, e')) :
    s.isFailValue = true ∧ e' = ex' ∧ ∀ a ∈ path, ReturnsFail P sel a.1 a.2 := by
  induction h generalizing s e' with
  | here =>
      rw [hrun] at hx
      cases hx
      exact ⟨hfail, rfl, nofun⟩
  | @son c d x e ed ex i path h hp hpath ih =>
      have hc := hseq _ List.mem_cons_self
      cases h with
      | sequence ha h =>
          have hrun' := hrun
          rw [eval, strategyOf, ha] at hrun'
          obtain ⟨result, last, hsons, hlast, heq⟩ := returnAction_fail hrun'
          obtain ⟨pre, post, ss₁, sd, ed', _, _, _, _, hd, hcont⟩ := h.ok hsons
          obtain ⟨hdfail, hed, hall⟩ := ih (fun a ha => hseq a (List.mem_cons_of_mem _ ha)) hx hd
          rw [if_pos hdfail] at hcont
          rw [hcont.1, List.getLast?_concat] at hlast
          cases hlast
          have hs : s.isFailValue = true := heq.trans hdfail
          refine ⟨hs, hcont.2.trans hed, ?_⟩
          rw [List.forall_mem_cons]
          exact ⟨⟨s, e', hrun, hs⟩, hall⟩
      | send ha _ => rw [IsSequence, ha] at hc; cases hc
      | command ha _ => rw [IsSequence, ha] at hc; cases hc
      | read ha _ _ _ => rw [IsSequence, ha] at hc; cases hc
      | alternative _ => exact hc.elim
      | copy _ _ _ => exact hc.elim

/-- A result that does not fail is not the end of a failing sequence: what comes
after it makes calls. -/
theorem calls_after {p x : Composite} {ep ep' ex ex' : Env} {i : Nat} {sp sx : State}
    (h : RunsSon P sel p ep i x ex) (hseq : IsSequence p) (hframe : ex'.lastFrame = none)
    (hx : eval P sel x ex = .ok (sx, ex')) (hok : sx.isFailValue = false)
    (hp : eval P sel p ep = .ok (sp, ep')) (hfail : sp.isFailValue = true) :
    ex'.trace.length < ep'.trace.length := by
  cases h with
  | sequence ha h =>
      rw [eval, strategyOf, ha] at hp
      obtain ⟨result, last, hsons, hlast, heq⟩ := returnAction_fail hp
      obtain ⟨pre, post, ss₁, s, ed', _, _, _, _, hd, hcont⟩ := h.ok hsons
      rw [hx] at hd
      cases hd
      rw [hok, if_neg Bool.false_ne_true] at hcont
      obtain ⟨ss₂, hpost, rfl⟩ := hcont
      have hne : ss₂ ≠ [] := by
        rintro rfl
        rw [List.getLast?_concat] at hlast
        cases hlast
        rw [heq, hok] at hfail
        cases hfail
      rw [List.getLast?_append_of_ne_nil _ (by simp), List.getLast?_cons_of_ne_nil hne] at hlast
      exact evalSonsReturn_fail_calls (fun d _ _ _ _ h => fail_calls d h) hpost hframe hlast
        (heq.symm.trans hfail)
  | send ha _ => rw [IsSequence, ha] at hseq; cases hseq
  | command ha _ => rw [IsSequence, ha] at hseq; cases hseq
  | read ha _ _ _ => rw [IsSequence, ha] at hseq; cases hseq
  | alternative _ => exact hseq.elim
  | copy _ _ _ => exact hseq.elim

/-- A run handles its failures if and only if each of them is the whole run, or a
read inside sequences. -/
theorem propagates_iff {c : Composite} {e e' : Env} {s : State} (hframe : e.lastFrame = none)
    (hrun : eval P sel c e = .ok (s, e')) :
    Propagates P sel c e e' ↔ FailsInSequences P sel c e := by
  constructor
  · intro h path x ex hpath hfails
    obtain ⟨hall, sx, ex', hx, htrace⟩ := h path x ex hpath hfails
    obtain ⟨rfl, _, _⟩ | ⟨init, p, ep, i, rfl, hinit, hson, hpass⟩ := hpath.snoc
    · exact .inl rfl
    · refine .inr ?_
      have hseq : ∀ a ∈ init ++ [(p, ep)], IsSequence a.1 := by
        intro a ha
        obtain ⟨j, hpass⟩ := hpath.passes a ha
        obtain ⟨_, _, ha, hfail⟩ := hall a ha
        exact isSequence_of_fail hpass ha hfail
      cases hfails with
      | inr hread => exact ⟨hread, hseq⟩
      | inl hsend =>
          -- The send returns without failing, so the node around it fails later.
          obtain ⟨ha, _, _⟩ := hsend
          have hok : sx.isFailValue = false := by
            have hx' := hx
            rw [eval, strategyOf, ha] at hx'
            exact sendAction_ok_mark hx'
          obtain ⟨sp, ep', hp, hfail⟩ := hall (p, ep) (by simp)
          obtain ⟨_, sp', ep'', hp', hafter⟩ := hinit.visits.inside hrun
          rw [hp] at hp'
          cases hp'
          have hcalls := calls_after hson (hseq (p, ep) (by simp))
            (frame_of_effect (eval_effect _ hx) (hpath.frame hframe)) hx hok hp hfail
          have hle := hafter.trace.length_le
          rw [htrace] at hle
          omega
  · intro h path x ex hpath hfails
    obtain rfl | ⟨hread, hseq⟩ := h path x ex hpath hfails
    · cases hpath
      exact ⟨by simp, s, e', hrun, rfl⟩
    · cases hread with
      | intro ha hx hfail =>
          obtain ⟨_, rfl, hall⟩ := fails_of_sequences hpath hseq hx hfail hrun
          exact ⟨hall, _, _, hx, rfl⟩

end Paths

/-! ## The runs of the program -/

namespace Main

/-- Forgetting the variables leaves the last frame as it is. -/
theorem resetVariable_frame {e e' : Env} (h : resetVariable e = .ok ((), e')) :
    e'.lastFrame = e.lastFrame := by
  unfold resetVariable at h
  split at h
  · cases h
  · cases h
    rfl

/-- Between two runs there is no last frame. -/
theorem Reachable.lastFrame {P : Platform} {t : ParsedTree} {g : TSGenerator} {e : Env} {m : Main}
    (h : Reachable P t g e m) (he : e.lastFrame = none) : m.world.env.lastFrame = none := by
  induction h with
  | refl =>
      have hinit : World.Valid t 0 { generator := g, env := e } := ⟨[], .initial t g e⟩
      obtain ⟨_, henv⟩ := World.getAction_visited t.root (Composite.mem_nodes_self t.root) hinit
      rw [start, henv]
      exact he
  | @tail m m' hreach hstep ih =>
      obtain ⟨extra, hw⟩ := Inv.valid (Reachable.inv hreach)
      unfold Step step at hstep
      split at hstep
      · unfold enterTestCase at hstep
        split at hstep
        · split at hstep
          · cases hstep
          · cases hstep
            exact ih
        · cases hstep
          exact ih
      · split at hstep
        · unfold runOnce at hstep
          split at hstep
          · cases hstep
          · next result w hrun =>
              split at hstep
              · cases hstep
              · next w' hprep =>
                  cases hstep
                  have heval := World.eval_of_runTest hw (Composite.mem_nodes_self t.root) hrun
                  have hnone := frame_of_effect (eval_effect _ heval) ih
                  obtain ⟨_, w₁, hreset, hstrategy⟩ := Comp.bind_ok.mp hprep
                  obtain ⟨e₁, hreset', rfl⟩ := liftEnv_ok.mp hreset
                  cases hstrategy
                  exact (resetVariable_frame hreset').trans hnone
        · cases hstep
          unfold leaveTestCase
          split
          · exact ih
          · exact ih
      · cases hstep
        exact ih

/-- In every run of the program failures are handled if and only if each of them
is the whole run, or a read inside sequences. -/
theorem failures_propagate_iff (P : Platform) (t : ParsedTree) (g : TSGenerator)
    (reads : List ReadOutcome) (sends : List Int) (m : Main) (s : State) (w' : World)
    (h : Reachable P t g { reads := reads, sends := sends } m)
    (hrun : runTest P t.root m.world = .ok (s, w')) :
    Propagates P m.world.selected t.root m.world.env w'.env ↔
      FailsInSequences P m.world.selected t.root m.world.env := by
  obtain ⟨extra, hw⟩ := h.inv.valid
  exact propagates_iff (h.lastFrame rfl)
    (World.eval_of_runTest hw (Composite.mem_nodes_self t.root) hrun)

/-- Two sends, as in `r = (<%UDP_send%> "a") (<%UDP_send%> "b")`. -/
def twoSends : ParsedTree where
  root := .node .composite 0 (ascii "r")
    [.node .composite 1 (ascii "()")
      [.leaf .commandComposite 2 (ascii "<%UDP_send%>"), .leaf .stringLeaf 3 (ascii "\\\"a\\\"")],
     .node .composite 4 (ascii "()")
      [.leaf .commandComposite 5 (ascii "<%UDP_send%>"), .leaf .stringLeaf 6 (ascii "\\\"b\\\"")]]
  nodup := by decide
  sons_ne_nil := by decide
  alternatives := by decide
  size := by decide

/-- Before the first run of the two sends, with a socket that refuses the first. -/
def twoSendsStart : Main := start twoSends .exp { sends := [-1] }

theorem failures_propagate_iff_twoSends : ∃ s w',
    runTest ⟨id, 0⟩ twoSends.root twoSendsStart.world = .ok (s, w') ∧
      (Propagates ⟨id, 0⟩ twoSendsStart.world.selected twoSends.root twoSendsStart.world.env
          w'.env ↔
        FailsInSequences ⟨id, 0⟩ twoSendsStart.world.selected twoSends.root
          twoSendsStart.world.env) := by
  have hok : (runTest ⟨id, 0⟩ twoSends.root twoSendsStart.world).isOk = true := by decide
  cases hrun : runTest ⟨id, 0⟩ twoSends.root twoSendsStart.world with
  | error x =>
      rw [hrun] at hok
      cases hok
  | ok p =>
      exact ⟨p.1, p.2, rfl, failures_propagate_iff ⟨id, 0⟩ twoSends .exp [] [-1] twoSendsStart p.1
        p.2 .refl hrun⟩

/-- The first send is refused, and yet the run does not fail. -/
theorem failures_are_overwritten :
    ¬ ∀ (P : Platform) (t : ParsedTree) (g : TSGenerator) (reads : List ReadOutcome)
      (sends : List Int) (m : Main) (s : State) (w' : World),
      Reachable P t g { reads := reads, sends := sends } m →
        runTest P t.root m.world = .ok (s, w') →
          Propagates P m.world.selected t.root m.world.env w'.env := by
  intro hall
  have hmark : (eval ⟨id, 0⟩ twoSendsStart.world.selected twoSends.root
      twoSendsStart.world.env).map (fun p => p.1.isFailValue) = .ok false := by decide
  have hok : (runTest ⟨id, 0⟩ twoSends.root twoSendsStart.world).isOk = true := by decide
  cases hrun : runTest ⟨id, 0⟩ twoSends.root twoSendsStart.world with
  | error x =>
      rw [hrun] at hok
      cases hok
  | ok p =>
      have hprop := hall ⟨id, 0⟩ twoSends .exp [] [-1] twoSendsStart p.1 p.2 .refl hrun
      obtain ⟨hfails, _⟩ := hprop [(twoSends.root, twoSendsStart.world.env)] _
        twoSendsStart.world.env (.son (.sequence rfl (.head _ _ _)) rfl .here)
        (.inl (.intro rfl rfl (by decide)))
      obtain ⟨s, e', heval, hfail⟩ := hfails _ List.mem_cons_self
      rw [heval] at hmark
      have hfalse : s.isFailValue = false := Except.ok.inj hmark
      rw [hfalse] at hfail
      cases hfail

end Main

end Stress

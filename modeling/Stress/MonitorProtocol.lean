import Stress.Library.Marker
import Stress.Library.Text
import Mathlib.Data.List.Count
import Mathlib.Logic.Relation

/-!
# The monitor and its server

`Monitor` (`lib/monitor.cc`) talks to `Server` (`monitors/ruby/tcp-server.rb`), which runs
the collectors next to the program under test.  The manager of this version does not
create a `Monitor`, but its class and the server are there.

The client writes lines, and the server handles them one after the other.  It answers
`start` and `stop` with `Ok`, `getreport` with a line of text, and `read` not at all.  The
client reads the answers in pieces of any length.  A wait for `Ok` looks at one piece at a
time, and `getReport` takes one piece for the report.  The loop of the constructor that
should wait for `Ready` has its condition the wrong way round, so that the first wait for
`Ok` reads it too.

The connection can end at any time: then `gets` has nothing more to read or throws, and the
server closes its socket and stops the collectors.  A client that has lost its server does
not notice, since it catches what its own socket throws.

`lock_step_iff` says when a test is run between the start and the stop of the collectors,
over every interleaving and every way to cut the stream, as long as the connection lasts.
`wait_ends_iff` says when a wait can still end.
-/

namespace Stress.Monitoring

open Marker Relation

/-! ## The client -/

/-- What a method of `Monitor` writes. -/
inductive Request where
  | start
  | read
  | stop
  | getreport
deriving DecidableEq, Repr

def Request.text : Request → Bytes
  | .start => ascii "start\n"
  | .read => ascii "read\n"
  | .stop => ascii "stop\n"
  | .getreport => ascii "getreport\n"

/-- Where the client is: before a test, in the loop of `start_test`, in the test, in the
loop of `finish_test`, behind the test, and in `getReport`. -/
inductive Phase where
  | ready
  | starting
  | testing
  | finishing
  | finished
  | reporting
deriving DecidableEq, Repr

/-- The method calls in the order of `main`, and where they lead. -/
def Phase.call : Phase → Request → Option Phase
  | .ready, .start => some .starting
  | .testing, .read => some .testing
  | .testing, .stop => some .finishing
  | .finished, .getreport => some .reporting
  | _, _ => none

/-- Whether the client is in a call of `receive`. -/
def Phase.receives : Phase → Bool
  | .starting | .finishing | .reporting => true
  | .ready | .testing | .finished => false

/-- `std::string(data).find("Ok") != std::string::npos`. -/
def hasOk (data : Bytes) : Bool := (find (ascii "Ok") data).isSome

/-! ## The server -/

inductive Handler where
  | startTestCase
  | stopTestCase
  | packetSent
  | packetRead
  | getreport
  | error
  | quit
deriving DecidableEq, Repr

/-- `line =~ /^die\r?$/`, for a line with its end. -/
def isDie (line : Bytes) : Bool := line == ascii "die\n" || line == ascii "die\r\n"

/-- What the loop of `run` does for a line. -/
def handler (line : Bytes) : Handler :=
  if isDie line then .quit
  else if (find (ascii "start") line).isSome then .startTestCase
  else if (find (ascii "stop") line).isSome then .stopTestCase
  else if (find (ascii "sent") line).isSome then .packetSent
  else if (find (ascii "read") line).isSome then .packetRead
  else if (find (ascii "getreport") line).isSome then .getreport
  else .error

/-- `gets`: the first line with its end and what is behind it, if the end is there. -/
def gets (s : Bytes) : Option (Bytes × Bytes) :=
  match s.span (· != 10) with
  | (_, []) => none
  | (line, c :: rest) => some (line ++ [c], rest)

/-- `puts`. -/
def puts (s : Bytes) : Bytes := if s.getLast? = some 10 then s else s ++ [10]

inductive Server where
  | listening
  | serving
  | closed
deriving DecidableEq, Repr

/-! ## The system -/

/-- The client, the server and the two directions of the connection.  What has been
written, handled, made and recorded is kept as well.  A report goes with the number of the
test that it is for. -/
structure System where
  phase : Phase := .ready
  server : Server := .listening
  collecting : Bool := false
  up : Bytes := []
  down : Bytes := []
  sent : List Request := []
  calls : List Handler := []
  made : List (Nat × Bytes) := []
  reports : List (Nat × Bytes) := []

namespace System

/-- A call of a method whose `send` succeeds. -/
def call (q : Request) (σ : System) : Option System :=
  match σ.server with
  | .listening | .serving =>
      (σ.phase.call q).map fun p =>
        { σ with phase := p, up := σ.up ++ q.text, sent := σ.sent ++ [q] }
  | .closed => none

/-- A call of a method whose `send` throws, or succeeds although the server has closed its
socket. -/
def lose (q : Request) (σ : System) : Option System :=
  (σ.phase.call q).map fun p => { σ with phase := p }

/-- `accept`, and `puts` of the greeting. -/
def accept (σ : System) : Option System :=
  match σ.server with
  | .listening => some { σ with server := .serving, down := σ.down ++ ascii "Ready\n" }
  | .serving | .closed => none

/-- The number of tests that the client has started. -/
def clientTest (σ : System) : Nat := σ.sent.count .start

/-- The number of tests that the server has started. -/
def serverTest (σ : System) : Nat := σ.calls.count .startTestCase

/-- What a handler does, when the results of the collector read `report`. -/
def handle (report : Bytes) (h : Handler) (σ : System) : System :=
  let σ := { σ with calls := σ.calls ++ [h] }
  match h with
  | .startTestCase => { σ with collecting := true, down := σ.down ++ ascii "Ok" }
  | .stopTestCase => { σ with collecting := false, down := σ.down ++ ascii "Ok" }
  | .packetSent | .packetRead => σ
  | .getreport =>
      { σ with made := σ.made ++ [(σ.serverTest, report)], down := σ.down ++ puts report }
  | .error => { σ with down := σ.down ++ ascii "Error" }
  | .quit => { σ with server := .closed, collecting := false }

/-- A turn of the loop of `run`. -/
def serve (report : Bytes) (σ : System) : Option System :=
  match σ.server with
  | .serving => (gets σ.up).map fun p => { σ with up := p.2 }.handle report (handler p.1)
  | .listening | .closed => none

/-- The connection ends for the server: `gets` is at its end or throws `ECONNRESET`.  `run`
closes the socket, which drops what has not been read, and calls `stop_test_case`.  Answers
that are lost with the connection stay in `down`, and the client's receives throw. -/
def hangUp (σ : System) : Option System :=
  match σ.server with
  | .serving => some { σ with server := .closed, collecting := false, up := [] }
  | .listening | .closed => none

/-- What the client does with the contents of its buffer. -/
def got (data : Bytes) (σ : System) : System :=
  match σ.phase with
  | .starting => if hasOk data then { σ with phase := .testing } else σ
  | .finishing => if hasOk data then { σ with phase := .finished } else σ
  | .reporting => { σ with phase := .ready, reports := σ.reports ++ [(σ.clientTest, data)] }
  | .ready | .testing | .finished => σ

/-- The buffer as a C string, when `receive` has put `n` bytes into it. -/
def buffer (n : Nat) (σ : System) : Bytes := (σ.down.take n).takeWhile (· != 0)

/-- A `receive` that gets the next `n` bytes. -/
def receive (n : Nat) (σ : System) : Option System :=
  if σ.phase.receives && decide (0 < n ∧ n ≤ 2047 ∧ n ≤ σ.down.length) then
    some ({ σ with down := σ.down.drop n }.got (σ.buffer n))
  else none

/-- A `receive` that throws. -/
def receiveFails (σ : System) : Option System :=
  if σ.phase.receives then some (σ.got []) else none

end System

/-- What can happen next. -/
inductive Action where
  | call (q : Request)
  | lose (q : Request)
  | accept
  | serve (report : Bytes)
  | hangUp
  | receive (n : Nat)
  | receiveFails

def step : Action → System → Option System
  | .call q, σ => σ.call q
  | .lose q, σ => σ.lose q
  | .accept, σ => σ.accept
  | .serve report, σ => σ.serve report
  | .hangUp, σ => σ.hangUp
  | .receive n, σ => σ.receive n
  | .receiveFails, σ => σ.receiveFails

/-- The texts of the reports are among `R`. -/
def Action.Allowed (R : Bytes → Prop) : Action → Prop
  | .serve report => R report
  | _ => True

/-- A step of the client, the server or the connection. -/
def Step (R : Bytes → Prop) (σ σ' : System) : Prop :=
  ∃ a : Action, a.Allowed R ∧ step a σ = some σ'

def Reachable (R : Bytes → Prop) : System → Prop := ReflTransGen (Step R) {}

/-! ## Texts -/

theorem hasOk_iff {data : Bytes} : hasOk data = true ↔ [79, 107] <:+: data := find_isSome_iff

theorem gets_text (q : Request) (rest : Bytes) : gets (q.text ++ rest) = some (q.text, rest) := by
  cases q <;> rfl

def Request.handler (q : Request) : Handler := Monitoring.handler q.text

@[simp] theorem handler_start : Request.handler .start = .startTestCase := by decide
@[simp] theorem handler_read : Request.handler .read = .packetRead := by decide
@[simp] theorem handler_stop : Request.handler .stop = .stopTestCase := by decide
@[simp] theorem handler_getreport : Request.handler .getreport = .getreport := by decide

/-- Texts between two answers. -/
abbrev Silent : Bytes → Prop := Quiet 79 107

theorem silent_greeting : Silent (ascii "Ready\n") where
  no_marker h := by
    have : hasOk (ascii "Ready\n") = true := hasOk_iff.mpr h
    exact absurd this (by decide)
  no_half := by decide

theorem silent_puts {r : Bytes} (h : hasOk r = false) : Silent (puts r) := by
  have hno : ¬ [79, 107] <:+: r := fun hr => by
    rw [hasOk_iff.mpr hr] at h
    cases h
  unfold puts
  split
  · next hlast => exact ⟨hno, by rw [hlast]; decide⟩
  · exact .concat hno (by decide) (by decide)

/-- What is in the buffer is part of what has been delivered. -/
theorem System.buffer_infix (n : Nat) (σ : System) : σ.buffer n <:+: σ.down.take n :=
  (List.takeWhile_prefix _).isInfix

/-! ## The invariant -/

/-- A report is what a piece of the text made for its test begins with. -/
def OfTest (made : List (Nat × Bytes)) (p : Nat × Bytes) : Prop :=
  p.2 = [] ∨ ∃ r n, (p.1, r) ∈ made ∧ 0 < n ∧ n ≤ 2047 ∧
    p.2 = ((puts r).take n).takeWhile (· != 0)

/-- A request for a report that `getReport` has given up on may still be on its way. -/
def Late (pending : List Request) : Prop := pending = [] ∨ pending = [.getreport]

/-- How far a test has come, with the requests that are still on their way.  A wait is
over for good when its request or its answer is lost. -/
inductive Stage (σ : System) : List Request → Prop
  | ready {pending : List Request} (hphase : σ.phase = .ready) (hlate : Late pending)
      (hdown : Silent σ.down) (hcol : σ.collecting = false) : Stage σ pending
  | starting {pending : List Request} (hphase : σ.phase = .starting) (hlate : Late pending)
      (hdown : Silent σ.down) (hcol : σ.collecting = false) : Stage σ (pending ++ [.start])
  | started (t : Bytes) (hphase : σ.phase = .starting) (ht : Silent t)
      (hdown : σ.down = t ++ [79, 107]) (hcol : σ.server ≠ .closed → σ.collecting = true) :
      Stage σ []
  | startLost {pending : List Request} (hphase : σ.phase = .starting) (hlate : Late pending)
      (hdown : Silent σ.down) : Stage σ pending
  | testing {pending : List Request} (hphase : σ.phase = .testing)
      (hreads : ∀ q ∈ pending, q = .read) (hdown : σ.down = [])
      (hcol : σ.server ≠ .closed → σ.collecting = true) : Stage σ pending
  | finishing {pending : List Request} (hphase : σ.phase = .finishing)
      (hreads : ∀ q ∈ pending, q = .read) (hdown : σ.down = []) (hcol : σ.collecting = true) :
      Stage σ (pending ++ [.stop])
  | stopped (t : Bytes) (hphase : σ.phase = .finishing) (ht : Silent t)
      (hdown : σ.down = t ++ [79, 107]) (hcol : σ.collecting = false) : Stage σ []
  | stopLost {pending : List Request} (hphase : σ.phase = .finishing)
      (hreads : ∀ q ∈ pending, q = .read) (hdown : Silent σ.down) : Stage σ pending
  | finished (hphase : σ.phase = .finished) (hdown : σ.down = [])
      (hcol : σ.collecting = false) : Stage σ []
  | reporting (hphase : σ.phase = .reporting) (hdown : σ.down = [])
      (hcol : σ.collecting = false) : Stage σ [.getreport]
  | reported (r : Bytes) (hphase : σ.phase = .reporting) (hmade : (σ.clientTest, r) ∈ σ.made)
      (hquiet : Silent (puts r)) (hdown : σ.down = puts r) (hcol : σ.collecting = false) :
      Stage σ []
  | reportLost (hphase : σ.phase = .reporting) (hdown : σ.down = [])
      (hcol : σ.collecting = false) : Stage σ []

/-- What holds in every reachable state. -/
structure Inv (σ : System) (pending : List Request) : Prop where
  queue : σ.up = pending.flatMap Request.text
  sent : σ.server ≠ .closed →
    σ.sent.map Request.handler = σ.calls ++ pending.map Request.handler
  closed : σ.server = .closed → pending = [] ∧ σ.collecting = false
  listening : σ.server = .listening →
    σ.collecting = false ∧ (σ.phase = .ready ∨ σ.phase = .starting)
  stage : Stage σ pending
  reports : ∀ p ∈ σ.reports, OfTest σ.made p

/-! ## Calls -/

theorem Phase.call_some {p p' : Phase} {q : Request} (h : p.call q = some p') :
    (p = .ready ∧ q = .start ∧ p' = .starting) ∨ (p = .testing ∧ q = .read ∧ p' = .testing) ∨
      (p = .testing ∧ q = .stop ∧ p' = .finishing) ∨
      (p = .finished ∧ q = .getreport ∧ p' = .reporting) := by
  cases p <;> cases q <;> simp_all [Phase.call]

section Calls

variable {σ σ' : System} {pending : List Request}

theorem Stage.of_ready (h : Stage σ pending) (hphase : σ.phase = .ready) :
    Late pending ∧ Silent σ.down ∧ σ.collecting = false := by
  cases h with
  | ready _ hlate hdown hcol => exact ⟨hlate, hdown, hcol⟩
  | _ => simp_all

theorem Stage.of_testing (h : Stage σ pending) (hphase : σ.phase = .testing) :
    (∀ q ∈ pending, q = .read) ∧ σ.down = [] ∧ (σ.server ≠ .closed → σ.collecting = true) := by
  cases h with
  | testing _ hreads hdown hcol => exact ⟨hreads, hdown, hcol⟩
  | _ => simp_all

theorem Stage.of_finished (h : Stage σ pending) (hphase : σ.phase = .finished) :
    pending = [] ∧ σ.down = [] ∧ σ.collecting = false := by
  cases h with
  | finished _ hdown hcol => exact ⟨rfl, hdown, hcol⟩
  | _ => simp_all

/-- A server that has been waited for listens no more. -/
theorem Inv.not_listening (h : Inv σ pending) (hready : σ.phase ≠ .ready)
    (hstarting : σ.phase ≠ .starting) : σ.server ≠ .listening := by
  intro hl
  exact (h.listening hl).2.elim hready hstarting

theorem System.call_some {q : Request} (h : σ.call q = some σ') : σ.server ≠ .closed ∧
    ∃ p, σ.phase.call q = some p ∧
      σ' = { σ with phase := p, up := σ.up ++ q.text, sent := σ.sent ++ [q] } := by
  unfold System.call at h
  split at h
  · next hserver =>
      obtain ⟨p, hp, rfl⟩ := Option.map_eq_some_iff.mp h
      exact ⟨by rw [hserver]; decide, p, hp, rfl⟩
  · next hserver =>
      obtain ⟨p, hp, rfl⟩ := Option.map_eq_some_iff.mp h
      exact ⟨by rw [hserver]; decide, p, hp, rfl⟩
  · cases h

/-- The stage that a call leads to, with its request on its way or lost. -/
theorem Inv.call (h : Inv σ pending) {q : Request} (hcall : σ.call q = some σ') :
    Inv σ' (pending ++ [q]) := by
  obtain ⟨hopen, p, hp, rfl⟩ := System.call_some hcall
  have hclosed : ∀ {P : Prop}, σ.server = .closed → P := fun hc => absurd hc hopen
  have hqueue : σ.up ++ q.text = (pending ++ [q]).flatMap Request.text := by
    rw [List.flatMap_append, h.queue, List.flatMap_singleton]
  have hsent : (σ.sent ++ [q]).map Request.handler =
      σ.calls ++ (pending ++ [q]).map Request.handler := by
    rw [List.map_append, List.map_append, h.sent hopen, List.append_assoc]
  obtain ⟨hphase, rfl, rfl⟩ | ⟨hphase, rfl, rfl⟩ | ⟨hphase, rfl, rfl⟩ | ⟨hphase, rfl, rfl⟩ :=
    Phase.call_some hp
  · obtain ⟨hlate, hdown, hcol⟩ := h.stage.of_ready hphase
    exact ⟨hqueue, fun _ => hsent, hclosed, fun hl => ⟨hcol, .inr rfl⟩,
      .starting rfl hlate hdown hcol, h.reports⟩
  · obtain ⟨hreads, hdown, hcol⟩ := h.stage.of_testing hphase
    have hnot := h.not_listening (by rw [hphase]; decide) (by rw [hphase]; decide)
    refine ⟨hqueue, fun _ => hsent, hclosed, fun hl => absurd hl hnot,
      .testing rfl ?_ hdown hcol, h.reports⟩
    intro q hq
    rw [List.mem_append, List.mem_singleton] at hq
    exact hq.elim (hreads q) id
  · obtain ⟨hreads, hdown, hcol⟩ := h.stage.of_testing hphase
    have hnot := h.not_listening (by rw [hphase]; decide) (by rw [hphase]; decide)
    exact ⟨hqueue, fun _ => hsent, hclosed, fun hl => absurd hl hnot,
      .finishing rfl hreads hdown (hcol hopen), h.reports⟩
  · obtain ⟨rfl, hdown, hcol⟩ := h.stage.of_finished hphase
    have hnot := h.not_listening (by rw [hphase]; decide) (by rw [hphase]; decide)
    exact ⟨hqueue, fun _ => hsent, hclosed, fun hl => absurd hl hnot, .reporting rfl hdown hcol,
      h.reports⟩

theorem Inv.lose (h : Inv σ pending) {q : Request} (hlose : σ.lose q = some σ') :
    Inv σ' pending := by
  obtain ⟨p, hp, rfl⟩ := Option.map_eq_some_iff.mp hlose
  obtain ⟨hphase, rfl, rfl⟩ | ⟨hphase, rfl, rfl⟩ | ⟨hphase, rfl, rfl⟩ | ⟨hphase, rfl, rfl⟩ :=
    Phase.call_some hp
  · obtain ⟨hlate, hdown, hcol⟩ := h.stage.of_ready hphase
    exact ⟨h.queue, h.sent, h.closed, fun hl => ⟨hcol, .inr rfl⟩,
      .startLost rfl hlate hdown, h.reports⟩
  · obtain ⟨hreads, hdown, hcol⟩ := h.stage.of_testing hphase
    have hnot := h.not_listening (by rw [hphase]; decide) (by rw [hphase]; decide)
    exact ⟨h.queue, h.sent, h.closed, fun hl => absurd hl hnot,
      .testing rfl hreads hdown hcol, h.reports⟩
  · obtain ⟨hreads, hdown, hcol⟩ := h.stage.of_testing hphase
    have hnot := h.not_listening (by rw [hphase]; decide) (by rw [hphase]; decide)
    have hsilent : Silent σ.down := by
      rw [hdown]
      exact .nil
    exact ⟨h.queue, h.sent, h.closed, fun hl => absurd hl hnot, .stopLost rfl hreads hsilent,
      h.reports⟩
  · obtain ⟨rfl, hdown, hcol⟩ := h.stage.of_finished hphase
    have hnot := h.not_listening (by rw [hphase]; decide) (by rw [hphase]; decide)
    exact ⟨h.queue, h.sent, h.closed, fun hl => absurd hl hnot, .reportLost rfl hdown hcol,
      h.reports⟩

end Calls

/-! ## The server's turns -/

section Server

variable {σ σ' : System} {pending : List Request}

theorem System.accept_some (h : σ.accept = some σ') : σ.server = .listening ∧
    σ' = { σ with server := .serving, down := σ.down ++ ascii "Ready\n" } := by
  unfold System.accept at h
  split at h
  · next hserver => exact ⟨hserver, (Option.some.inj h).symm⟩
  · cases h
  · cases h

theorem System.hangUp_some (h : σ.hangUp = some σ') : σ.server = .serving ∧
    σ' = { σ with server := .closed, collecting := false, up := [] } := by
  unfold System.hangUp at h
  split at h
  · next hserver => exact ⟨hserver, (Option.some.inj h).symm⟩
  · cases h
  · cases h

theorem Inv.accept (h : Inv σ pending) (haccept : σ.accept = some σ') : Inv σ' pending := by
  obtain ⟨hl, rfl⟩ := System.accept_some haccept
  obtain ⟨hcol, hphase⟩ := h.listening hl
  have hsent := h.sent (by rw [hl]; decide)
  refine ⟨h.queue, fun _ => hsent, by simp, by simp, ?_, h.reports⟩
  cases h.stage with
  | ready hready hlate hdown =>
      exact .ready hready hlate (hdown.append silent_greeting) hcol
  | starting hstarting hlate hdown =>
      exact .starting hstarting hlate (hdown.append silent_greeting) hcol
  | startLost hstarting hlate hdown =>
      exact .startLost hstarting hlate (hdown.append silent_greeting)
  | _ => simp_all

/-- A turn of the server handles the first request that is on its way. -/
theorem Inv.serve_eq (h : Inv σ pending) {r : Bytes} (hserve : σ.serve r = some σ') :
    σ.server = .serving ∧ ∃ q rest, pending = q :: rest ∧
      σ' = { σ with up := rest.flatMap Request.text }.handle r q.handler := by
  unfold System.serve at hserve
  split at hserve
  · next hserver =>
      cases pending with
      | nil =>
          rw [h.queue] at hserve
          cases hserve
      | cons q rest =>
          rw [h.queue, List.flatMap_cons, gets_text] at hserve
          cases hserve
          exact ⟨hserver, q, rest, rfl, rfl⟩
  · cases hserve
  · cases hserve

theorem Request.handler_injective : Function.Injective Request.handler := by
  intro q q' h
  cases q <;> cases q' <;> first | rfl | simp at h

/-- When every request has been handled, the two parties count the same tests. -/
theorem serverTest_eq {sent : List Request} {calls : List Handler}
    (h : sent.map Request.handler = calls) : calls.count .startTestCase = sent.count .start := by
  rw [← h, ← handler_start, List.count_map_of_injective _ _ Request.handler_injective]

theorem OfTest.mono {made made' : List (Nat × Bytes)} {p : Nat × Bytes} (h : OfTest made p)
    (hsub : made ⊆ made') : OfTest made' p := by
  obtain hnil | ⟨r, n, hr, hn⟩ := h
  · exact .inl hnil
  · exact .inr ⟨r, n, hsub hr, hn⟩

theorem Late.cons {q : Request} {rest : List Request} (h : Late (q :: rest)) :
    q = .getreport ∧ rest = [] := by
  obtain h | h := h
  · cases h
  · cases h
    exact ⟨rfl, rfl⟩

theorem Stage.serve {q : Request} {rest : List Request} (h : Stage σ pending)
    (hp : pending = q :: rest) {r u : Bytes} (hr : hasOk r = false)
    (hsent : σ.sent.map Request.handler = σ.calls ++ pending.map Request.handler) :
    Stage ({ σ with up := u }.handle r q.handler) rest := by
  have hputs : Silent (puts r) := silent_puts hr
  cases h with
  | ready hphase hlate hdown hcol =>
      obtain ⟨rfl, rfl⟩ := (hp ▸ hlate).cons
      exact .ready hphase (.inl rfl) (hdown.append hputs) hcol
  | starting hphase hlate hdown hcol =>
      obtain rfl | rfl := hlate
      · cases hp
        exact .started σ.down hphase hdown rfl fun _ => rfl
      · cases hp
        change Stage _ ([] ++ [.start])
        exact .starting hphase (.inl rfl) (hdown.append hputs) hcol
  | started => cases hp
  | startLost hphase hlate hdown =>
      obtain ⟨rfl, rfl⟩ := (hp ▸ hlate).cons
      exact .startLost hphase (.inl rfl) (hdown.append hputs)
  | testing hphase hreads hdown hcol =>
      subst hp
      cases hreads q List.mem_cons_self
      exact .testing hphase (fun q' hq' => hreads q' (List.mem_cons_of_mem _ hq')) hdown hcol
  | @finishing pre hphase hreads hdown hcol =>
      cases pre with
      | nil =>
          cases hp
          refine .stopped [] hphase .nil ?_ rfl
          change σ.down ++ ascii "Ok" = _
          rw [hdown]
          rfl
      | cons q' pre =>
          cases hreads q' List.mem_cons_self
          cases hp
          exact .finishing hphase (fun q' hq' => hreads q' (List.mem_cons_of_mem _ hq')) hdown
            hcol
  | stopped => cases hp
  | stopLost hphase hreads hdown =>
      subst hp
      cases hreads q List.mem_cons_self
      exact .stopLost hphase (fun q' hq' => hreads q' (List.mem_cons_of_mem _ hq')) hdown
  | finished => cases hp
  | reporting hphase hdown hcol =>
      cases hp
      refine .reported r hphase ?_ hputs ?_ hcol
      · change (σ.sent.count .start, r) ∈ σ.made ++ [(_, r)]
        rw [← serverTest_eq hsent]
        exact List.mem_append_right _ (List.mem_singleton_self _)
      · change σ.down ++ puts r = _
        rw [hdown]
        rfl
  | reported => cases hp
  | reportLost => cases hp

/-- The answer to a request. -/
def Request.answer (report : Bytes) : Request → Bytes
  | .start | .stop => [79, 107]
  | .getreport => puts report
  | .read => []

/-- No request of the client closes the connection. -/
structure Handled (report : Bytes) (q : Request) (σ σ' : System) : Prop where
  phase : σ'.phase = σ.phase
  server : σ'.server = σ.server
  up : σ'.up = σ.up
  down : σ'.down = σ.down ++ q.answer report
  sent : σ'.sent = σ.sent
  calls : σ'.calls = σ.calls ++ [q.handler]
  made : σ.made ⊆ σ'.made
  reports : σ'.reports = σ.reports

theorem System.handle_handled (r : Bytes) (q : Request) (σ : System) :
    Handled r q σ (σ.handle r q.handler) := by
  cases q with
  | start => exact ⟨rfl, rfl, rfl, rfl, rfl, rfl, List.Subset.refl _, rfl⟩
  | read =>
      exact ⟨rfl, rfl, rfl, (List.append_nil _).symm, rfl, rfl, List.Subset.refl _, rfl⟩
  | stop => exact ⟨rfl, rfl, rfl, rfl, rfl, rfl, List.Subset.refl _, rfl⟩
  | getreport => exact ⟨rfl, rfl, rfl, rfl, rfl, rfl, List.subset_append_left _ _, rfl⟩

theorem Inv.serve (h : Inv σ pending) {r : Bytes} (hr : hasOk r = false)
    (hserve : σ.serve r = some σ') : ∃ rest, Inv σ' rest := by
  obtain ⟨hserver, q, rest, hp, rfl⟩ := h.serve_eq hserve
  have hd := System.handle_handled r q { σ with up := rest.flatMap Request.text }
  have hsent := h.sent (by rw [hserver]; decide)
  refine ⟨rest, ⟨hd.up, fun _ => ?_, ?_, ?_, h.stage.serve hp hr hsent, ?_⟩⟩
  · rw [hd.sent, hd.calls, hsent, hp, List.map_cons, List.append_assoc]
    rfl
  · intro hc
    rw [hd.server] at hc
    exact absurd (hserver.symm.trans hc) (by decide)
  · intro hl
    rw [hd.server] at hl
    exact absurd (hserver.symm.trans hl) (by decide)
  · intro p hp
    rw [hd.reports] at hp
    exact (h.reports p hp).mono hd.made

/-- What was on its way to the server is lost, and what was on its way from it is not. -/
theorem Stage.hangUp (h : Stage σ pending) :
    Stage { σ with server := .closed, collecting := false, up := [] } [] := by
  have hnone : ∀ q ∈ ([] : List Request), q = .read := List.forall_mem_nil _
  cases h with
  | ready hphase _ hdown => exact .ready hphase (.inl rfl) hdown rfl
  | starting hphase _ hdown => exact .startLost hphase (.inl rfl) hdown
  | started t hphase ht hdown => exact .started t hphase ht hdown fun hopen => absurd rfl hopen
  | startLost hphase _ hdown => exact .startLost hphase (.inl rfl) hdown
  | testing hphase _ hdown => exact .testing hphase hnone hdown fun hopen => absurd rfl hopen
  | finishing hphase _ hdown =>
      have hsilent : Silent σ.down := by
        rw [hdown]
        exact .nil
      exact .stopLost hphase hnone hsilent
  | stopped t hphase ht hdown => exact .stopped t hphase ht hdown rfl
  | stopLost hphase _ hdown => exact .stopLost hphase hnone hdown
  | finished hphase hdown => exact .finished hphase hdown rfl
  | reporting hphase hdown => exact .reportLost hphase hdown rfl
  | reported r hphase hmade hquiet hdown => exact .reported r hphase hmade hquiet hdown rfl
  | reportLost hphase hdown => exact .reportLost hphase hdown rfl

theorem Inv.hangUp (h : Inv σ pending) (hhang : σ.hangUp = some σ') : Inv σ' [] := by
  obtain ⟨_, rfl⟩ := System.hangUp_some hhang
  exact ⟨rfl, fun hopen => absurd rfl hopen, fun _ => ⟨rfl, rfl⟩, by simp, h.stage.hangUp,
    h.reports⟩

end Server

/-! ## Receiving -/

section Receiving

variable {σ σ' : System} {pending : List Request}

theorem System.receive_some {n : Nat} (h : σ.receive n = some σ') :
    σ.phase.receives = true ∧ (0 < n ∧ n ≤ 2047 ∧ n ≤ σ.down.length) ∧
      σ' = { σ with down := σ.down.drop n }.got (σ.buffer n) := by
  unfold System.receive at h
  split at h
  · next hn =>
      rw [Bool.and_eq_true, decide_eq_true_iff] at hn
      exact ⟨hn.1, hn.2, (Option.some.inj h).symm⟩
  · cases h

/-- A `receive` that throws is one of no bytes. -/
theorem System.receiveFails_some (h : σ.receiveFails = some σ') :
    σ.phase.receives = true ∧ σ' = { σ with down := σ.down.drop 0 }.got (σ.buffer 0) := by
  unfold System.receiveFails at h
  split at h
  · next hreceives => exact ⟨hreceives, (Option.some.inj h).symm⟩
  · cases h

/-- A buffer filled from the front of a silent text ends no wait. -/
theorem System.hasOk_buffer (n : Nat) (h : Silent σ.down) : hasOk (σ.buffer n) = false := by
  refine Bool.eq_false_iff.mpr fun hok => h.no_marker ?_
  have hpiece : σ.down.take n <:+: σ.down := (List.take_prefix n σ.down).isInfix
  exact (hasOk_iff.mp hok).trans ((σ.buffer_infix n).trans hpiece)

theorem System.got_starting (d data : Bytes) (hphase : σ.phase = .starting) :
    { σ with down := d }.got data =
      if hasOk data then { σ with phase := .testing, down := d } else { σ with down := d } := by
  simp only [System.got, hphase]

theorem System.got_finishing (d data : Bytes) (hphase : σ.phase = .finishing) :
    { σ with down := d }.got data =
      if hasOk data then { σ with phase := .finished, down := d } else { σ with down := d } := by
  simp only [System.got, hphase]

theorem System.got_reporting (d data : Bytes) (hphase : σ.phase = .reporting) :
    { σ with down := d }.got data =
      { σ with
        phase := .ready
        down := d
        reports := σ.reports ++ [(σ.clientTest, data)] } := by
  simp only [System.got, hphase]
  rfl

/-- The same state up to the answers that are on their way and the phase. -/
theorem Inv.moved (h : Inv σ pending) {p : Phase} {d : Bytes} {rs : List (Nat × Bytes)}
    (hlisten : σ.server = .listening → p = .ready ∨ p = .starting)
    (hstage : Stage { σ with phase := p, down := d, reports := rs } pending)
    (hreports : ∀ x ∈ rs, OfTest σ.made x) :
    Inv { σ with phase := p, down := d, reports := rs } pending :=
  ⟨h.queue, h.sent, h.closed, fun hl => ⟨(h.listening hl).1, hlisten hl⟩, hstage, hreports⟩

/-- A wait goes on when its buffer has no answer in it. -/
theorem Inv.wait (h : Inv σ pending) {data d : Bytes} (hdata : hasOk data = false)
    (hphase : σ.phase = .starting ∨ σ.phase = .finishing)
    (hstage : Stage { σ with down := d } pending) :
    Inv ({ σ with down := d }.got data) pending := by
  have hsame : { σ with down := d }.got data = { σ with down := d } := by
    obtain hphase | hphase := hphase
    · rw [System.got_starting d data hphase, hdata]
      rfl
    · rw [System.got_finishing d data hphase, hdata]
      rfl
  rw [hsame]
  exact h.moved (fun hl => (h.listening hl).2) hstage h.reports

/-- The answer is in the buffer as a whole, and then nothing is behind it, or it is not. -/
theorem System.answered {t : Bytes} (n : Nat) (ht : Silent t) (hdown : σ.down = t ++ [79, 107]) :
    (hasOk (σ.buffer n) = true ∧ σ.down.drop n = []) ∨
      (hasOk (σ.buffer n) = false ∧
        ((∃ t', Silent t' ∧ σ.down.drop n = t' ++ [79, 107]) ∨ Silent (σ.down.drop n))) := by
  have hpiece : σ.down.take n ++ σ.down.drop n = t ++ [79, 107] := by
    rw [List.take_append_drop, hdown]
  cases hok : hasOk (σ.buffer n) with
  | true =>
      have hmarker := (hasOk_iff.mp hok).trans (σ.buffer_infix n)
      exact .inl ⟨rfl, (ht.eq_of_marker hpiece hmarker).2⟩
  | false =>
      refine .inr ⟨rfl, ?_⟩
      obtain hrest | ⟨_, hhalf⟩ | hnil := ht.rest hpiece
      · exact .inl hrest
      · exact .inr (hhalf ▸ .half (by decide))
      · exact .inr (hnil ▸ .nil)

/-- The client takes `n` bytes, or none when `receive` throws. -/
theorem Inv.got (h : Inv σ pending) {n : Nat} (hn : n ≤ 2047)
    (hreceives : σ.phase.receives = true) :
    Inv ({ σ with down := σ.down.drop n }.got (σ.buffer n)) pending := by
  have hsuffix : σ.down.drop n <:+ σ.down := List.drop_suffix n σ.down
  have hdrop : σ.down = [] → σ.down.drop n = [] := fun hdown => by rw [hdown, List.drop_nil]
  have hrecord : σ.phase = .reporting → OfTest σ.made (σ.clientTest, σ.buffer n) →
      Stage { σ with
        phase := .ready
        down := σ.down.drop n
        reports := σ.reports ++ [(σ.clientTest, σ.buffer n)] } pending →
      Inv ({ σ with down := σ.down.drop n }.got (σ.buffer n)) pending := by
    intro hphase hof hstage
    rw [System.got_reporting _ _ hphase]
    refine h.moved (fun hl => .inl rfl) hstage fun x hx => ?_
    rw [List.mem_append, List.mem_singleton] at hx
    exact hx.elim (h.reports x) fun heq => heq ▸ hof
  cases h.stage with
  | ready hphase =>
      rw [hphase] at hreceives
      cases hreceives
  | testing hphase =>
      rw [hphase] at hreceives
      cases hreceives
  | finished hphase =>
      rw [hphase] at hreceives
      cases hreceives
  | starting hphase hlate hdown hcol =>
      exact h.wait (System.hasOk_buffer n hdown) (.inl hphase)
        (.starting hphase hlate (hdown.suffix hsuffix) hcol)
  | startLost hphase hlate hdown =>
      exact h.wait (System.hasOk_buffer n hdown) (.inl hphase)
        (.startLost hphase hlate (hdown.suffix hsuffix))
  | finishing hphase hreads hdown hcol =>
      exact h.wait (System.hasOk_buffer n (hdown ▸ .nil)) (.inr hphase)
        (.finishing hphase hreads (hdrop hdown) hcol)
  | stopLost hphase hreads hdown =>
      exact h.wait (System.hasOk_buffer n hdown) (.inr hphase)
        (.stopLost hphase hreads (hdown.suffix hsuffix))
  | started t hphase ht hdown hcol =>
      obtain ⟨hok, hnil⟩ | ⟨hok, ⟨t', ht', hrest⟩ | hrest⟩ := System.answered n ht hdown
      · rw [System.got_starting _ _ hphase, hok]
        refine h.moved (fun hl => ?_) (.testing rfl (fun q hq => by cases hq) hnil hcol) h.reports
        have hcol := hcol (by rw [hl]; decide)
        exact absurd (hcol.symm.trans (h.listening hl).1) (by decide)
      · exact h.wait hok (.inl hphase) (.started t' hphase ht' hrest hcol)
      · exact h.wait hok (.inl hphase) (.startLost hphase (.inl rfl) hrest)
  | stopped t hphase ht hdown hcol =>
      obtain ⟨hok, hnil⟩ | ⟨hok, ⟨t', ht', hrest⟩ | hrest⟩ := System.answered n ht hdown
      · rw [System.got_finishing _ _ hphase, hok]
        refine h.moved (fun hl => ?_) (.finished rfl hnil hcol) h.reports
        exact absurd hl (h.not_listening (by rw [hphase]; decide) (by rw [hphase]; decide))
      · exact h.wait hok (.inr hphase) (.stopped t' hphase ht' hrest hcol)
      · exact h.wait hok (.inr hphase) (.stopLost hphase (fun q hq => by cases hq) hrest)
  | reporting hphase hdown hcol =>
      refine hrecord hphase (.inl ?_) (.ready rfl (.inr rfl) ?_ hcol)
      · rw [System.buffer, hdown, List.take_nil]
        rfl
      · rw [hdrop hdown]
        exact .nil
  | reported r hphase hmade hquiet hdown hcol =>
      refine hrecord hphase ?_ (.ready rfl (.inl rfl) ?_ hcol)
      · cases n with
        | zero => exact .inl rfl
        | succ n => exact .inr ⟨r, n + 1, hmade, Nat.succ_pos n, hn, by rw [System.buffer, hdown]⟩
      · exact (hdown ▸ hquiet : Silent σ.down).suffix hsuffix
  | reportLost hphase hdown hcol =>
      refine hrecord hphase (.inl ?_) (.ready rfl (.inl rfl) ?_ hcol)
      · rw [System.buffer, hdown, List.take_nil]
        rfl
      · rw [hdrop hdown]
        exact .nil

end Receiving

/-! ## Runs -/

section Runs

variable {R : Bytes → Prop} {σ σ' : System} {pending : List Request}

theorem Inv.init : Inv {} [] where
  queue := rfl
  sent _ := rfl
  closed h := by cases h
  listening _ := ⟨rfl, .inl rfl⟩
  stage := .ready rfl (.inl rfl) .nil rfl
  reports p hp := by cases hp

theorem Inv.step (hR : ∀ r, R r → hasOk r = false) (h : Inv σ pending) (hstep : Step R σ σ') :
    ∃ pending', Inv σ' pending' := by
  obtain ⟨a, hallowed, hstep⟩ := hstep
  cases a with
  | call q => exact ⟨_, h.call hstep⟩
  | lose q => exact ⟨_, h.lose hstep⟩
  | accept => exact ⟨_, h.accept hstep⟩
  | serve r => exact h.serve (hR r hallowed) hstep
  | hangUp => exact ⟨_, h.hangUp hstep⟩
  | receive n =>
      obtain ⟨hreceives, hn, rfl⟩ := System.receive_some hstep
      exact ⟨_, h.got hn.2.1 hreceives⟩
  | receiveFails =>
      obtain ⟨hreceives, rfl⟩ := System.receiveFails_some hstep
      exact ⟨_, h.got (Nat.zero_le 2047) hreceives⟩

theorem Reachable.inv (hR : ∀ r, R r → hasOk r = false) (h : Reachable R σ) :
    ∃ pending, Inv σ pending := by
  induction h with
  | refl => exact ⟨[], .init⟩
  | tail _ hstep ih =>
      obtain ⟨pending, hinv⟩ := ih
      exact hinv.step hR hstep

/-- As long as the connection lasts, the collectors run while the client tests, and have
been stopped when it is through.  Everything the client has written is handled by then, up to
notices of packets that have been read.  Without the connection no collector runs. -/
structure LockStep (σ : System) : Prop where
  testing : σ.server ≠ .closed → σ.phase = .testing → σ.collecting = true ∧ ∃ done pending,
    σ.sent = done ++ pending ∧ σ.calls = done.map Request.handler ∧ ∀ q ∈ pending, q = .read
  finished : σ.server ≠ .closed → σ.phase = .finished →
    σ.collecting = false ∧ σ.calls = σ.sent.map Request.handler
  closed : σ.server = .closed → σ.collecting = false

theorem Inv.lockStep (h : Inv σ pending) : LockStep σ where
  testing hopen hphase := by
    obtain ⟨hreads, _, hcol⟩ := h.stage.of_testing hphase
    obtain ⟨done, rest, hsent, hdone, hrest⟩ := List.map_eq_append_iff.mp (h.sent hopen)
    refine ⟨hcol hopen, done, rest, hsent, hdone.symm, ?_⟩
    rw [List.map_injective_iff.mpr Request.handler_injective hrest]
    exact hreads
  finished hopen hphase := by
    obtain ⟨rfl, _, hcol⟩ := h.stage.of_finished hphase
    exact ⟨hcol, by rw [h.sent hopen, List.map_nil, List.append_nil]⟩
  closed hclosed := (h.closed hclosed).2

end Runs

/-! ## Undisturbed steps -/

/-- Nothing throws, and no piece ends inside an answer. -/
def Action.Undisturbed (σ : System) : Action → Prop
  | .lose _ | .hangUp | .receiveFails => False
  | .receive n => ¬ ((σ.down.take n).getLast? = some 79 ∧ (σ.down.drop n).head? = some 107)
  | .call _ | .accept | .serve _ => True

def CleanStep (R : Bytes → Prop) (σ σ' : System) : Prop :=
  ∃ a : Action, a.Allowed R ∧ a.Undisturbed σ ∧ step a σ = some σ'

/-- The request that a loop waits for, and where the loop leads. -/
def Phase.awaits : Phase → Option (Request × Phase)
  | .starting => some (.start, .testing)
  | .finishing => some (.stop, .finished)
  | .ready | .testing | .finished | .reporting => none

section Clean

variable {R : Bytes → Prop} {σ σ' : System} {pending : List Request} {q : Request} {p : Phase}

theorem CleanStep.step (h : CleanStep R σ σ') : Step R σ σ' := by
  obtain ⟨a, hallowed, _, hstep⟩ := h
  exact ⟨a, hallowed, hstep⟩

theorem Phase.awaits_some {p' : Phase} (h : p.awaits = some (q, p')) :
    (p = .starting ∧ q = .start ∧ p' = .testing) ∨
      (p = .finishing ∧ q = .stop ∧ p' = .finished) := by
  cases p <;> simp_all [Phase.awaits]

theorem System.got_wait (hwait : σ.phase.awaits = some (q, p)) (d data : Bytes) :
    { σ with down := d }.got data =
      if hasOk data then { σ with phase := p, down := d } else { σ with down := d } := by
  obtain ⟨hphase, rfl, rfl⟩ | ⟨hphase, rfl, rfl⟩ := Phase.awaits_some hwait
  · exact System.got_starting d data hphase
  · exact System.got_finishing d data hphase

theorem System.receive_eq {n : Nat} (hreceives : σ.phase.receives = true) (hpos : 0 < n)
    (hmax : n ≤ 2047) (hlen : n ≤ σ.down.length) :
    σ.receive n = some ({ σ with down := σ.down.drop n }.got (σ.buffer n)) := by
  rw [System.receive, hreceives, decide_eq_true ⟨hpos, hmax, hlen⟩]
  rfl

theorem receives_of_awaits {p' : Phase} (h : p.awaits = some (q, p')) : p.receives = true := by
  obtain ⟨rfl, _, _⟩ | ⟨rfl, _, _⟩ := Phase.awaits_some h
  · rfl
  · rfl

theorem hasOk_of_length {data : Bytes} (h : data.length ≤ 1) : hasOk data = false := by
  refine Bool.eq_false_iff.mpr fun hok => ?_
  have := (hasOk_iff.mp hok).length_le
  simp only [List.length_cons, List.length_nil] at this
  omega

/-- A wait reads up to the first answer byte by byte, and then the answer. -/
theorem drain (hwait : σ.phase.awaits = some (q, p)) {u v : Bytes}
    (hdown : σ.down = u ++ [79, 107] ++ v) (hfirst : ¬ [79, 107] <:+: u ++ [79]) :
    ReflTransGen (CleanStep R) σ { σ with phase := p, down := v } := by
  have hreceives := receives_of_awaits hwait
  induction u generalizing σ with
  | nil =>
      rw [List.nil_append] at hdown
      have hbuffer : σ.buffer 2 = [79, 107] := by
        rw [System.buffer, hdown]
        rfl
      refine .single ⟨.receive 2, trivial, ?_, ?_⟩
      · rw [Action.Undisturbed, hdown]
        simp
      · change σ.receive 2 = _
        rw [System.receive_eq hreceives (by omega) (by omega) (by rw [hdown]; simp),
          System.got_wait hwait, hbuffer, hdown]
        rfl
  | cons c u ih =>
      have hbuffer : hasOk (σ.buffer 1) = false := by
        refine hasOk_of_length ((σ.buffer_infix 1).length_le.trans ?_)
        rw [List.length_take]
        exact Nat.min_le_left 1 _
      refine .head (b := { σ with down := u ++ [79, 107] ++ v }) ⟨.receive 1, trivial, ?_, ?_⟩ ?_
      · rw [Action.Undisturbed, hdown]
        rintro ⟨hlast, hhead⟩
        cases hlast
        cases u with
        | nil => exact absurd hhead (by simp)
        | cons d u =>
            cases hhead
            exact hfirst ⟨[], u ++ [79], by simp⟩
      · change σ.receive 1 = _
        rw [System.receive_eq hreceives (by omega) (by omega) (by rw [hdown]; simp),
          System.got_wait hwait, hbuffer, hdown]
        rfl
      · have hrest : ¬ [79, 107] <:+: u ++ [79] :=
          fun h => hfirst (h.trans (List.suffix_cons c _).isInfix)
        exact ih hwait rfl hrest hreceives

theorem CleanStep.run (h : ReflTransGen (CleanStep R) σ σ') : ReflTransGen (Step R) σ σ' :=
  h.lift id fun _ _ => CleanStep.step

end Clean

/-! ## Lock step -/

section LockStep

variable {R : Bytes → Prop}

/-- Actions one after the other. -/
def runActions : List Action → System → Option System
  | [], σ => some σ
  | a :: as, σ => (step a σ).bind (runActions as)

theorem runActions_run {as : List Action} {σ σ' : System} (hallowed : ∀ a ∈ as, a.Allowed R)
    (h : runActions as σ = some σ') : ReflTransGen (Step R) σ σ' := by
  induction as generalizing σ with
  | nil =>
      cases h
      exact .refl
  | cons a as ih =>
      obtain ⟨σ₁, hstep, hrest⟩ := Option.bind_eq_some_iff.mp h
      exact .head ⟨a, hallowed a List.mem_cons_self, hstep⟩
        (ih (fun a' ha' => hallowed a' (List.mem_cons_of_mem _ ha')) hrest)

theorem puts_cons {c : UInt8} (hc : c ≠ 10) (r : Bytes) : puts (c :: r) = c :: puts r := by
  cases r with
  | nil =>
      rw [puts, if_neg (by simpa using hc)]
      rfl
  | cons d r =>
      rw [puts, puts, List.getLast?_cons_cons]
      split <;> rfl

/-- The first test up to the call of `getReport`. -/
def firstTest (r : Bytes) : List Action :=
  [.call .start, .accept, .serve r, .receive 8, .call .stop, .serve r, .receive 2,
    .call .getreport, .serve r]

/-- The state after it. -/
def afterFirstTest (r : Bytes) : System where
  phase := .reporting
  server := .serving
  down := puts r
  sent := [.start, .stop, .getreport]
  calls := [.startTestCase, .stopTestCase, .getreport]
  made := [(1, r)]

theorem runActions_firstTest (r : Bytes) :
    runActions (firstTest r) {} = some (afterFirstTest r) := rfl

/-- The next test is started when only the first byte of the report has been read. -/
def afterOneByte (r : Bytes) : System :=
  { afterFirstTest (91 :: r) with
    phase := .starting
    up := Request.start.text
    down := puts r
    sent := [.start, .stop, .getreport, .start]
    reports := [(1, [91])] }

theorem reachable_afterOneByte {r : Bytes} (hr : R (91 :: r)) : Reachable R (afterOneByte r) := by
  have hfirst : Reachable R (afterFirstTest (91 :: r)) := by
    refine runActions_run (fun a ha => ?_) (runActions_firstTest _)
    simp only [firstTest, List.mem_cons, List.not_mem_nil, or_false] at ha
    obtain rfl | rfl | rfl | rfl | rfl | rfl | rfl | rfl | rfl := ha <;> first | exact hr | trivial
  have hputs : (afterFirstTest (91 :: r)).down = 91 :: puts r := puts_cons (by decide) r
  have hbyte : step (.receive 1) (afterFirstTest (91 :: r)) =
      some { afterFirstTest (91 :: r) with
        phase := .ready, down := puts r, reports := [(1, [91])] } := by
    change System.receive 1 _ = _
    rw [System.receive_eq rfl (by omega) (by omega) (by rw [hputs]; simp), System.buffer, hputs]
    rfl
  have hcall : step (.call .start) { afterFirstTest (91 :: r) with
      phase := .ready, down := puts r, reports := [(1, [91])] } = some (afterOneByte r) := rfl
  exact (hfirst.tail ⟨.receive 1, trivial, hbyte⟩).tail ⟨.call .start, trivial, hcall⟩

/-- An answer in what is left of a report ends the wait of the next test. -/
theorem out_of_step {r : Bytes} (hr : R (91 :: r)) (hok : hasOk (91 :: r) = true) :
    ∃ σ, Reachable R σ ∧ σ.server ≠ .closed ∧ σ.phase = .testing ∧ σ.collecting = false := by
  have hmarker : [79, 107] <:+: 91 :: puts r := by
    rw [← puts_cons (by decide), puts]
    split
    · exact hasOk_iff.mp hok
    · exact (hasOk_iff.mp hok).trans (List.prefix_append _ _).isInfix
  have hleft : [79, 107] <:+: puts r := by
    obtain hprefix | hinfix := List.infix_cons_iff.mp hmarker
    · rw [List.cons_prefix_cons] at hprefix
      exact absurd hprefix.1 (by decide)
    · exact hinfix
  obtain ⟨u, v, huv, hfirst⟩ := exists_first hleft
  have hdrain : ReflTransGen (CleanStep R) (afterOneByte r)
      { afterOneByte r with phase := .testing, down := v } :=
    drain (q := .start) rfl huv hfirst
  exact ⟨_, (reachable_afterOneByte hr).trans (CleanStep.run hdrain), Server.noConfusion, rfl,
    rfl⟩

/-- Client and server are in lock step in every run exactly when no report contains the
answer that the client waits for. -/
theorem lock_step_iff (R : Bytes → Prop) (hR : ∀ r, R r → r.head? = some 91) :
    (∀ σ, Reachable R σ → LockStep σ) ↔ ∀ r, R r → hasOk r = false := by
  constructor
  · intro h r hr
    refine Bool.eq_false_iff.mpr fun hok => ?_
    cases r with
    | nil => cases hR [] hr
    | cons c r =>
        cases hR (c :: r) hr
        obtain ⟨σ, hreach, hopen, hphase, hcol⟩ := out_of_step hr hok
        exact absurd (hcol.symm.trans ((h σ hreach).testing hopen hphase).1) (by decide)
  · intro h σ hreach
    obtain ⟨pending, hinv⟩ := hreach.inv h
    exact hinv.lockStep

/-- Reports of numbers. -/
theorem lock_step_numbers :
    (∀ σ, Reachable (· = ascii "[[3, 0, 4]]") σ → LockStep σ) ↔
      ∀ r, r = ascii "[[3, 0, 4]]" → hasOk r = false :=
  lock_step_iff (· = ascii "[[3, 0, 4]]") fun r hr => by
    rw [hr]
    decide

/-- Every report the client records is empty or the beginning of the report that the
server has made for the same test. -/
theorem report_of_test {R : Bytes → Prop} (hR : ∀ r, R r → hasOk r = false) {σ : System}
    (h : Reachable R σ) : ∀ p ∈ σ.reports, OfTest σ.made p := by
  obtain ⟨pending, hinv⟩ := h.inv hR
  exact hinv.reports

/-- A report of numbers of which only the first byte has been read. -/
theorem report_of_test_numbers : OfTest (afterOneByte (ascii "[3, 0, 4]]")).made (1, [91]) :=
  report_of_test (R := (· = 91 :: ascii "[3, 0, 4]]")) (fun r hr => by rw [hr]; decide)
    (reachable_afterOneByte rfl) (1, [91]) (List.mem_singleton.mpr rfl)

end LockStep

/-! ## Waits that end -/

section Waits

variable {R : Bytes → Prop} {σ σ' : System} {pending : List Request} {q : Request} {p : Phase}

/-- The requests that are on their way. -/
def Queued (σ : System) (q : Request) : Prop :=
  ∃ qs : List Request, σ.up = qs.flatMap Request.text ∧ q ∈ qs

theorem flatMap_text_injective {qs qs' : List Request}
    (h : qs.flatMap Request.text = qs'.flatMap Request.text) : qs = qs' := by
  induction qs generalizing qs' with
  | nil =>
      cases qs' with
      | nil => rfl
      | cons q' qs' =>
          have hgets := gets_text q' (qs'.flatMap Request.text)
          rw [← List.flatMap_cons, ← h] at hgets
          cases hgets
  | cons q qs ih =>
      have hgets := gets_text q (qs.flatMap Request.text)
      rw [← List.flatMap_cons, h] at hgets
      cases qs' with
      | nil => cases hgets
      | cons q' qs' =>
          rw [List.flatMap_cons, gets_text] at hgets
          obtain ⟨htext, hrest⟩ := Prod.mk.inj (Option.some.inj hgets)
          have hq : q' = q := by
            revert htext
            cases q <;> cases q' <;> decide
          rw [hq, ih hrest.symm]

theorem Inv.queued_iff (h : Inv σ pending) : Queued σ q ↔ q ∈ pending := by
  constructor
  · rintro ⟨qs, hup, hq⟩
    rwa [flatMap_text_injective (h.queue.symm.trans hup)]
  · exact fun hq => ⟨pending, h.queue, hq⟩

/-- In a wait the request is on its way, or the answer is, or nothing is that could end
the wait. -/
theorem Stage.of_wait (h : Stage σ pending) (hwait : σ.phase.awaits = some (q, p)) :
    q ∈ pending ∨ (pending = [] ∧ ∃ t, Silent t ∧ σ.down = t ++ [79, 107]) ∨
      (Silent σ.down ∧ ∀ q' ∈ pending, q' = .getreport ∨ q' = .read) := by
  have hlast : ∀ pre : List Request, q ∈ pre ++ [q] := fun pre =>
    List.mem_append_right pre (List.mem_singleton_self q)
  have hgetreport : Late pending → ∀ q' ∈ pending, q' = .getreport ∨ q' = .read := by
    rintro (rfl | rfl) q' hq'
    · cases hq'
    · exact .inl (List.mem_singleton.mp hq')
  cases h with
  | starting hphase =>
      rw [hphase] at hwait
      cases hwait
      exact .inl (hlast _)
  | started t _ ht hdown => exact .inr (.inl ⟨rfl, t, ht, hdown⟩)
  | startLost _ hlate hdown => exact .inr (.inr ⟨hdown, hgetreport hlate⟩)
  | finishing hphase =>
      rw [hphase] at hwait
      cases hwait
      exact .inl (hlast _)
  | stopped t _ ht hdown => exact .inr (.inl ⟨rfl, t, ht, hdown⟩)
  | stopLost _ hreads hdown => exact .inr (.inr ⟨hdown, fun q' hq' => .inr (hreads q' hq')⟩)
  | _ => simp_all [Phase.awaits]

/-- A wait that nothing can end. -/
structure Stuck (p : Phase) (σ : System) (pending : List Request) : Prop where
  inv : Inv σ pending
  phase : σ.phase = p
  silent : Silent σ.down
  late : ∀ q ∈ pending, q = .getreport ∨ q = .read

/-- What the client takes leaves it stuck. -/
theorem Stuck.got {p' : Phase} (h : Stuck p σ pending) (hwait : p.awaits = some (q, p')) {n : Nat}
    (hn : n ≤ 2047) : Stuck p ({ σ with down := σ.down.drop n }.got (σ.buffer n)) pending := by
  have hwait' : σ.phase.awaits = some (q, p') := by rw [h.phase, hwait]
  have hinv := h.inv.got hn (receives_of_awaits hwait')
  rw [System.got_wait hwait', System.hasOk_buffer n h.silent] at hinv ⊢
  exact ⟨hinv, h.phase, h.silent.suffix (List.drop_suffix n _), h.late⟩

theorem Stuck.step {p' : Phase} (hR : ∀ r, R r → hasOk r = false) (h : Stuck p σ pending)
    (hwait : p.awaits = some (q, p')) (hstep : Step R σ σ') : ∃ pending', Stuck p σ' pending' := by
  obtain ⟨a, hallowed, hstep⟩ := hstep
  have hnocall : ∀ q', σ.phase.call q' = none := by
    intro q'
    rw [h.phase]
    obtain ⟨rfl, _, _⟩ | ⟨rfl, _, _⟩ := Phase.awaits_some hwait <;> rfl
  cases a with
  | call q' =>
      obtain ⟨_, _, hcall, _⟩ := System.call_some hstep
      rw [hnocall] at hcall
      cases hcall
  | lose q' =>
      change (σ.phase.call q').map _ = _ at hstep
      rw [hnocall] at hstep
      cases hstep
  | accept =>
      have hinv := h.inv.accept hstep
      obtain ⟨_, rfl⟩ := System.accept_some hstep
      exact ⟨_, hinv, h.phase, h.silent.append silent_greeting, h.late⟩
  | serve r =>
      obtain ⟨rest', hinv⟩ := h.inv.serve (hR r hallowed) hstep
      obtain ⟨_, q', rest, hp, rfl⟩ := h.inv.serve_eq hstep
      have hd := System.handle_handled r q' { σ with up := rest.flatMap Request.text }
      have hrest : rest' = rest := flatMap_text_injective (hinv.queue.symm.trans hd.up)
      subst hrest hp
      refine ⟨rest', hinv, hd.phase.trans h.phase, ?_,
        fun q'' hq => h.late q'' (List.mem_cons_of_mem _ hq)⟩
      rw [hd.down]
      obtain rfl | rfl := h.late q' List.mem_cons_self
      · exact h.silent.append (silent_puts (hR r hallowed))
      · exact h.silent.append .nil
  | hangUp =>
      have hinv := h.inv.hangUp hstep
      obtain ⟨_, rfl⟩ := System.hangUp_some hstep
      exact ⟨[], hinv, h.phase, h.silent, List.forall_mem_nil _⟩
  | receive n =>
      obtain ⟨_, hn, rfl⟩ := System.receive_some hstep
      exact ⟨_, h.got hwait hn.2.1⟩
  | receiveFails =>
      obtain ⟨_, rfl⟩ := System.receiveFails_some hstep
      exact ⟨_, h.got hwait (Nat.zero_le 2047)⟩

theorem Stuck.run {p' : Phase} (hR : ∀ r, R r → hasOk r = false) (h : Stuck p σ pending)
    (hwait : p.awaits = some (q, p')) (hrun : ReflTransGen (Step R) σ σ') : σ'.phase = p := by
  have hstuck : ∃ pending', Stuck p σ' pending' := by
    induction hrun with
    | refl => exact ⟨pending, h⟩
    | tail _ hstep ih =>
        obtain ⟨pending', h'⟩ := ih
        exact h'.step hR hwait hstep
  obtain ⟨_, h'⟩ := hstuck
  exact h'.phase

/-! ## Turns of the server -/

/-- The server has handled everything: the client is where it was, and every answer is on
its way behind what was there before. -/
structure Served (r : Bytes) (σ : System) (pending : List Request) (σ' : System) : Prop where
  inv : Inv σ' []
  phase : σ'.phase = σ.phase
  server : σ'.server = .serving
  reports : σ'.reports = σ.reports
  down : σ'.down = σ.down ++ pending.flatMap (Request.answer r)

theorem serve_all {r : Bytes} (hr : R r) (hok : hasOk r = false) (h : Inv σ pending)
    (hserver : σ.server = .serving) :
    ∃ σ', ReflTransGen (CleanStep R) σ σ' ∧ Served r σ pending σ' := by
  induction pending generalizing σ with
  | nil => exact ⟨σ, .refl, h, rfl, hserver, rfl, (List.append_nil _).symm⟩
  | cons q rest ih =>
      have hserve : σ.serve r =
          some ({ σ with up := rest.flatMap Request.text }.handle r q.handler) := by
        rw [System.serve, hserver, h.queue, List.flatMap_cons, gets_text]
        rfl
      have hd := System.handle_handled r q { σ with up := rest.flatMap Request.text }
      obtain ⟨rest', hinv⟩ := h.serve hok hserve
      have hrest : rest' = rest := flatMap_text_injective (hinv.queue.symm.trans hd.up)
      subst hrest
      obtain ⟨σ', hrun, hserved⟩ := ih hinv (hd.server.trans hserver)
      refine ⟨σ', .head ⟨.serve r, hr, trivial, hserve⟩ hrun, hserved.inv,
        hserved.phase.trans hd.phase, hserved.server, hserved.reports.trans hd.reports, ?_⟩
      rw [hserved.down, hd.down, List.flatMap_cons, List.append_assoc]

/-- The same for a server that may still have to accept the connection.  One that has closed
it has left nothing unhandled. -/
theorem accept_serve_all {r : Bytes} (hr : R r) (hok : hasOk r = false) (h : Inv σ pending) :
    ∃ σ' t, ReflTransGen (CleanStep R) σ σ' ∧ Inv σ' [] ∧ σ'.phase = σ.phase ∧
      σ'.reports = σ.reports ∧
      σ'.down = σ.down ++ t ++ pending.flatMap (Request.answer r) := by
  cases hserver : σ.server with
  | listening =>
      have haccept : σ.accept =
          some { σ with server := .serving, down := σ.down ++ ascii "Ready\n" } := by
        rw [System.accept, hserver]
      obtain ⟨σ', hrun, hserved⟩ := serve_all hr hok (h.accept haccept) rfl
      exact ⟨σ', ascii "Ready\n", .head ⟨.accept, trivial, trivial, haccept⟩ hrun, hserved.inv,
        hserved.phase, hserved.reports, hserved.down⟩
  | serving =>
      obtain ⟨σ', hrun, hserved⟩ := serve_all hr hok h hserver
      exact ⟨σ', [], hrun, hserved.inv, hserved.phase, hserved.reports, by
        rw [hserved.down, List.append_nil]⟩
  | closed =>
      obtain ⟨rfl, _⟩ := h.closed hserver
      exact ⟨σ, [], .refl, h, rfl, rfl, by simp⟩

/-- A wait whose request or answer is on its way can end. -/
theorem wait_ends {r : Bytes} (hr : R r) (hok : hasOk r = false) (h : Inv σ pending)
    (hwait : σ.phase.awaits = some (q, p)) (hdue : hasOk σ.down = true ∨ q ∈ pending) :
    ∃ σ', ReflTransGen (CleanStep R) σ σ' ∧ σ'.phase = p ∧ σ'.reports = σ.reports := by
  obtain ⟨σ₁, t, hrun, hinv, hphase, hreports, hdown⟩ := accept_serve_all hr hok h
  have hanswer : [79, 107] <:+: σ₁.down := by
    rw [hdown]
    obtain hhas | hq := hdue
    · rw [List.append_assoc]
      exact (hasOk_iff.mp hhas).trans (List.prefix_append _ _).isInfix
    · have hq' : q.answer r = [79, 107] := by
        obtain ⟨_, rfl, _⟩ | ⟨_, rfl, _⟩ := Phase.awaits_some hwait <;> rfl
      have hmem : [79, 107] ∈ pending.map (Request.answer r) := hq' ▸ List.mem_map_of_mem hq
      rw [List.flatMap_def]
      exact (List.infix_of_mem_flatten hmem).trans (List.suffix_append _ _).isInfix
  have hwait₁ : σ₁.phase.awaits = some (q, p) := by rw [hphase, hwait]
  obtain hq | ⟨_, t', ht', hdown'⟩ | ⟨hsilent, _⟩ := hinv.stage.of_wait hwait₁
  · cases hq
  · have hdrain : ReflTransGen (CleanStep R) σ₁ { σ₁ with phase := p, down := [] } :=
      drain hwait₁ (hdown'.trans (List.append_nil _).symm) (ht'.first (by decide))
    exact ⟨_, hrun.trans hdrain, rfl, hreports⟩
  · exact absurd hanswer hsilent.no_marker

/-- A client in a loop for `Ok` gets out of it again in some run exactly when its request
has not been handled yet, or the answer is there as a whole.  So it stays there for good
when its request was lost or a piece has ended inside the answer. -/
theorem wait_ends_iff {R : Bytes → Prop} (hR : ∀ r, R r → hasOk r = false) (hmake : ∃ r, R r)
    {σ : System} (h : Reachable R σ) {q : Request} {p : Phase}
    (hwait : σ.phase.awaits = some (q, p)) :
    (∃ σ', ReflTransGen (Step R) σ σ' ∧ σ'.phase ≠ σ.phase) ↔
      Queued σ q ∨ hasOk σ.down = true := by
  obtain ⟨r, hr⟩ := hmake
  obtain ⟨pending, hinv⟩ := h.inv hR
  rw [hinv.queued_iff]
  constructor
  · rintro ⟨σ', hrun, hne⟩
    obtain hq | ⟨_, t, _, hdown⟩ | ⟨hsilent, hlate⟩ := hinv.stage.of_wait hwait
    · exact .inl hq
    · refine .inr (hasOk_iff.mpr ?_)
      rw [hdown]
      exact (List.suffix_append t _).isInfix
    · have hstuck : Stuck σ.phase σ pending := ⟨hinv, rfl, hsilent, hlate⟩
      exact absurd (hstuck.run hR hwait hrun) hne
  · intro hdue
    obtain ⟨σ', hrun, hphase, _⟩ := wait_ends hr (hR r hr) hinv hwait hdue.symm
    refine ⟨σ', CleanStep.run hrun, ?_⟩
    rw [hphase]
    obtain ⟨hp, _, rfl⟩ | ⟨hp, _, rfl⟩ := Phase.awaits_some hwait <;> rw [hp] <;> decide

/-- The wait of a second test, whose request is on its way. -/
theorem wait_ends_second :
    (∃ σ', ReflTransGen (Step (· = 91 :: ascii "[3, 0, 4]]"))
        (afterOneByte (ascii "[3, 0, 4]]")) σ' ∧
      σ'.phase ≠ (afterOneByte (ascii "[3, 0, 4]]")).phase) ↔
    Queued (afterOneByte (ascii "[3, 0, 4]]")) .start ∨
      hasOk (afterOneByte (ascii "[3, 0, 4]]")).down = true :=
  wait_ends_iff (R := (· = 91 :: ascii "[3, 0, 4]]")) (fun r hr => by rw [hr]; decide)
    ⟨_, rfl⟩ (reachable_afterOneByte rfl) rfl

end Waits

/-! ## Undisturbed runs -/

section Undisturbed

variable {R : Bytes → Prop} {σ σ' : System} {pending : List Request} {q : Request} {p : Phase}

/-- What the client waits for is on its way. -/
structure Due (σ : System) (pending : List Request) : Prop where
  answer : ∀ {q p}, σ.phase.awaits = some (q, p) → hasOk σ.down = true ∨ q ∈ pending
  report : σ.phase = .reporting → σ.down ≠ [] ∨ .getreport ∈ pending

/-- What holds in every state of an undisturbed run. -/
structure Healthy (σ : System) (pending : List Request) : Prop where
  inv : Inv σ pending
  still_open : σ.server ≠ .closed
  due : Due σ pending
  no_zero : 0 ∉ σ.down

theorem hasOk_append {s t : Bytes} (h : hasOk s = true) : hasOk (s ++ t) = true :=
  hasOk_iff.mpr ((hasOk_iff.mp h).trans (List.prefix_append s t).isInfix)

/-- Answers that are added take the place of requests. -/
theorem Due.answered (h : Due σ pending) {rest : List Request} {t : Bytes}
    (hphase : σ'.phase = σ.phase) (hdown : σ'.down = σ.down ++ t)
    (hok : ∀ q ∈ pending, q = .start ∨ q = .stop → hasOk t = true ∨ q ∈ rest)
    (hreport : .getreport ∈ pending → t ≠ [] ∨ .getreport ∈ rest) : Due σ' rest where
  answer {q p} hwait := by
    rw [hphase] at hwait
    have hq : q = .start ∨ q = .stop := by
      obtain ⟨_, rfl, _⟩ | ⟨_, rfl, _⟩ := Phase.awaits_some hwait
      · exact .inl rfl
      · exact .inr rfl
    obtain hhas | hmem := h.answer hwait
    · rw [hdown]
      exact .inl (hasOk_append hhas)
    · obtain ht | hrest := hok q hmem hq
      · refine .inl (hasOk_iff.mpr ?_)
        rw [hdown]
        exact (hasOk_iff.mp ht).trans (List.suffix_append _ _).isInfix
      · exact .inr hrest
  report hreporting := by
    rw [hdown]
    obtain hne | hmem := h.report (hphase ▸ hreporting)
    · exact .inl (List.append_ne_nil_of_left_ne_nil hne t)
    · obtain ht | hrest := hreport hmem
      · exact .inl (List.append_ne_nil_of_right_ne_nil _ ht)
      · exact .inr hrest

theorem puts_ne_nil (r : Bytes) : puts r ≠ [] := by
  unfold puts
  split
  · next hlast =>
      intro hnil
      rw [hnil] at hlast
      cases hlast
  · exact List.append_ne_nil_of_right_ne_nil r (by simp)

theorem zero_not_mem_answer {r : Bytes} (hr : 0 ∉ r) (q : Request) : 0 ∉ q.answer r := by
  cases q with
  | start => simp [Request.answer]
  | stop => simp [Request.answer]
  | read => simp [Request.answer]
  | getreport =>
      change 0 ∉ puts r
      unfold puts
      split
      · exact hr
      · simpa using hr

theorem Healthy.call (h : Healthy σ pending) (hcall : σ.call q = some σ') :
    Healthy σ' (pending ++ [q]) := by
  have hinv := h.inv.call hcall
  obtain ⟨hopen, p, hp, rfl⟩ := System.call_some hcall
  refine ⟨hinv, hopen, ?_, h.no_zero⟩
  · have hmem : q ∈ pending ++ [q] := List.mem_append_right _ (List.mem_singleton_self q)
    obtain ⟨_, rfl, rfl⟩ | ⟨_, rfl, rfl⟩ | ⟨_, rfl, rfl⟩ | ⟨_, rfl, rfl⟩ := Phase.call_some hp
    · exact ⟨fun hwait => by cases hwait; exact .inr hmem, fun hreporting => by cases hreporting⟩
    · exact ⟨fun hwait => (by cases hwait), fun hreporting => by cases hreporting⟩
    · exact ⟨fun hwait => by cases hwait; exact .inr hmem, fun hreporting => by cases hreporting⟩
    · exact ⟨fun hwait => (by cases hwait), fun _ => .inr hmem⟩

theorem Healthy.accept (h : Healthy σ pending) (haccept : σ.accept = some σ') :
    Healthy σ' pending := by
  have hinv := h.inv.accept haccept
  obtain ⟨_, rfl⟩ := System.accept_some haccept
  refine ⟨hinv, Server.noConfusion, h.due.answered rfl rfl (fun q hq _ => .inr hq) .inr, ?_⟩
  rw [List.mem_append]
  exact fun hmem => hmem.elim h.no_zero (by decide)

theorem Healthy.serve (h : Healthy σ pending) {r : Bytes} (hok : hasOk r = false) (hr : 0 ∉ r)
    (hserve : σ.serve r = some σ') : ∃ rest, Healthy σ' rest := by
  obtain ⟨rest', hinv⟩ := h.inv.serve hok hserve
  obtain ⟨_, q, rest, rfl, rfl⟩ := h.inv.serve_eq hserve
  have hd := System.handle_handled r q { σ with up := rest.flatMap Request.text }
  have hrest : rest' = rest := flatMap_text_injective (hinv.queue.symm.trans hd.up)
  subst hrest
  refine ⟨rest', hinv, hd.server.trans_ne h.still_open,
    h.due.answered hd.phase hd.down ?_ ?_, ?_⟩
  · intro q' hq' hwaited
    obtain rfl | hq' := List.mem_cons.mp hq'
    · have hanswer : hasOk [79, 107] = true := by decide
      obtain rfl | rfl := hwaited
      · exact .inl hanswer
      · exact .inl hanswer
    · exact .inr hq'
  · intro hq'
    obtain rfl | hq' := List.mem_cons.mp hq'
    · exact .inl (puts_ne_nil r)
    · exact .inr hq'
  · rw [hd.down, List.mem_append]
    exact fun hmem => hmem.elim h.no_zero (zero_not_mem_answer hr q)

/-- The bytes of a text without zeros are all in the buffer. -/
theorem System.buffer_eq (h : 0 ∉ σ.down) (n : Nat) : σ.buffer n = σ.down.take n := by
  rw [System.buffer, List.takeWhile_eq_self_iff]
  intro c hc
  have hne : c ≠ 0 := fun hzero => h (hzero ▸ List.mem_of_mem_take hc)
  simpa using hne

/-- A piece that does not end inside the answer ends the wait or leaves the answer. -/
theorem Healthy.wait (h : Healthy σ pending) (hwait : σ.phase.awaits = some (q, p)) {n : Nat}
    (hcut : ¬ ((σ.down.take n).getLast? = some 79 ∧ (σ.down.drop n).head? = some 107))
    (hbuffer : hasOk (σ.buffer n) = false) : hasOk (σ.down.drop n) = true ∨ q ∈ pending := by
  obtain hq | ⟨_, t, ht, hdown⟩ | ⟨hsilent, _⟩ := h.inv.stage.of_wait hwait
  · exact .inr hq
  · have hpiece : σ.down.take n ++ σ.down.drop n = t ++ [79, 107] := by
      rw [List.take_append_drop, hdown]
    refine .inl (hasOk_iff.mpr ?_)
    obtain ⟨t', _, hrest⟩ | ⟨htake, hhalf⟩ | hnil := ht.rest hpiece
    · rw [hrest]
      exact (List.suffix_append t' _).isInfix
    · exact absurd ⟨by rw [htake, List.getLast?_concat], by rw [hhalf]; rfl⟩ hcut
    · rw [System.buffer_eq h.no_zero, ← List.append_nil (σ.down.take n), ← hnil, hpiece] at hbuffer
      have hok : hasOk (t ++ [79, 107]) = true :=
        hasOk_iff.mpr (List.suffix_append t _).isInfix
      exact absurd (hok.symm.trans hbuffer) (by decide)
  · obtain hhas | hq := h.due.answer hwait
    · exact absurd (hasOk_iff.mp hhas) hsilent.no_marker
    · exact .inr hq

theorem Healthy.receive (h : Healthy σ pending) {n : Nat}
    (hcut : ¬ ((σ.down.take n).getLast? = some 79 ∧ (σ.down.drop n).head? = some 107))
    (hreceive : σ.receive n = some σ') : Healthy σ' pending := by
  obtain ⟨hreceives, hn, rfl⟩ := System.receive_some hreceive
  have hinv := h.inv.got hn.2.1 hreceives
  have hzero : 0 ∉ σ.down.drop n := fun hmem => h.no_zero (List.mem_of_mem_drop hmem)
  cases hwait : σ.phase.awaits with
  | some qp =>
      obtain ⟨q, p⟩ := qp
      rw [System.got_wait hwait] at hinv ⊢
      cases hbuffer : hasOk (σ.buffer n) with
      | true =>
          rw [hbuffer] at hinv
          refine ⟨hinv, h.still_open, ?_, hzero⟩
          obtain ⟨_, _, rfl⟩ | ⟨_, _, rfl⟩ := Phase.awaits_some hwait
          · exact ⟨fun hw => (by cases hw), fun hreporting => by cases hreporting⟩
          · exact ⟨fun hw => (by cases hw), fun hreporting => by cases hreporting⟩
      | false =>
          rw [hbuffer] at hinv
          refine ⟨hinv, h.still_open, ⟨fun {q' p'} hw => ?_, fun hreporting => ?_⟩, hzero⟩
          · exact h.wait hw hcut hbuffer
          · obtain ⟨hphase, _, _⟩ | ⟨hphase, _, _⟩ := Phase.awaits_some hwait
            · exact absurd (hphase.symm.trans hreporting) (by decide)
            · exact absurd (hphase.symm.trans hreporting) (by decide)
  | none =>
      have hphase : σ.phase = .reporting := by
        revert hreceives hwait
        cases σ.phase <;> simp [Phase.receives, Phase.awaits]
      rw [System.got_reporting _ _ hphase] at hinv ⊢
      exact ⟨hinv, h.still_open,
        ⟨fun hw => (by cases hw), fun hreporting => by cases hreporting⟩, hzero⟩

theorem Healthy.step (hok : ∀ r, R r → hasOk r = false) (hzero : ∀ r, R r → 0 ∉ r)
    (h : Healthy σ pending) (hstep : CleanStep R σ σ') : ∃ pending', Healthy σ' pending' := by
  obtain ⟨a, hallowed, hclean, hstep⟩ := hstep
  cases a with
  | call q => exact ⟨_, h.call hstep⟩
  | lose q => exact hclean.elim
  | accept => exact ⟨_, h.accept hstep⟩
  | serve r => exact h.serve (hok r hallowed) (hzero r hallowed) hstep
  | hangUp => exact hclean.elim
  | receive n => exact ⟨_, h.receive hclean hstep⟩
  | receiveFails => exact hclean.elim

theorem Healthy.run (hok : ∀ r, R r → hasOk r = false) (hzero : ∀ r, R r → 0 ∉ r)
    (h : Healthy σ pending) (hrun : ReflTransGen (CleanStep R) σ σ') :
    ∃ pending', Healthy σ' pending' := by
  induction hrun with
  | refl => exact ⟨pending, h⟩
  | tail _ hstep ih =>
      obtain ⟨pending', h'⟩ := ih
      exact h'.step hok hzero hstep

theorem Healthy.init : Healthy {} [] :=
  ⟨.init, Server.noConfusion,
    ⟨fun hw => (by cases hw), fun hreporting => by cases hreporting⟩, by simp⟩

/-- From `σ` an undisturbed run leads to one more report. -/
def LeadsToReport (R : Bytes → Prop) (σ : System) : Prop :=
  ∃ σ', ReflTransGen (CleanStep R) σ σ' ∧ σ'.reports.length = σ.reports.length + 1

theorem LeadsToReport.after (hrun : ReflTransGen (CleanStep R) σ σ')
    (hreports : σ'.reports = σ.reports) (h : LeadsToReport R σ') : LeadsToReport R σ := by
  obtain ⟨σ'', hrun', hlength⟩ := h
  exact ⟨σ'', hrun.trans hrun', by rw [hlength, hreports]⟩

theorem System.call_eq (hopen : σ.server ≠ .closed) (hcall : σ.phase.call q = some p) :
    σ.call q = some { σ with phase := p, up := σ.up ++ q.text, sent := σ.sent ++ [q] } := by
  unfold System.call
  split
  · rw [hcall]
    rfl
  · rw [hcall]
    rfl
  · next hclosed => exact absurd hclosed hopen

/-- A call that leads to a report. -/
theorem Healthy.leadsToReport_call (h : Healthy σ pending) (hcall : σ.phase.call q = some p)
    (hnext : ∀ σ', Healthy σ' (pending ++ [q]) → σ'.phase = p → LeadsToReport R σ') :
    LeadsToReport R σ := by
  have hstep := System.call_eq h.still_open hcall
  exact .after (.single ⟨.call q, trivial, trivial, hstep⟩) rfl (hnext _ (h.call hstep) rfl)

variable {r : Bytes} (hok : ∀ r, R r → hasOk r = false) (hzero : ∀ r, R r → 0 ∉ r) (hr : R r)

include hok hr

theorem Healthy.of_reporting (h : Healthy σ pending) (hphase : σ.phase = .reporting) :
    LeadsToReport R σ := by
  obtain ⟨σ₁, t, hrun, hinv, hsame, hreports, hdown⟩ := accept_serve_all hr (hok r hr) h.inv
  refine .after hrun hreports ?_
  have hreporting : σ₁.phase = .reporting := hsame.trans hphase
  have hne : σ₁.down ≠ [] := by
    rw [hdown]
    obtain hne | hmem := h.due.report hphase
    · exact List.append_ne_nil_of_left_ne_nil (List.append_ne_nil_of_left_ne_nil hne t) _
    · refine List.append_ne_nil_of_right_ne_nil _ fun hnil => ?_
      exact puts_ne_nil r (List.flatMap_eq_nil_iff.mp hnil _ hmem)
  have hsilent : Silent σ₁.down := by
    generalize hp : ([] : List Request) = rest at hinv
    cases hinv.stage with
    | reported r' _ _ hquiet hdown' => exact hdown' ▸ hquiet
    | reporting => cases hp
    | reportLost _ hdown' => exact absurd hdown' hne
    | _ => simp_all
  cases hd : σ₁.down with
  | nil => exact absurd hd hne
  | cons c rest =>
      refine ⟨{ σ₁ with
        phase := .ready
        down := rest
        reports := σ₁.reports ++ [(σ₁.clientTest, σ₁.buffer 1)] },
        .single ⟨.receive 1, trivial, ?_, ?_⟩, ?_⟩
      · rw [Action.Undisturbed, hd]
        rintro ⟨hlast, hhead⟩
        refine hsilent.no_marker ?_
        cases hlast
        cases rest with
        | nil => cases hhead
        | cons d rest =>
            cases hhead
            exact hd ▸ ⟨[], rest, rfl⟩
      · change σ₁.receive 1 = _
        rw [System.receive_eq (by rw [hreporting]; rfl) (by omega) (by omega) (by rw [hd]; simp),
          System.got_reporting _ _ hreporting, hd]
        rfl
      · rw [List.length_append, List.length_singleton]

theorem Healthy.of_finished (h : Healthy σ pending) (hphase : σ.phase = .finished) :
    LeadsToReport R σ := by
  have hcall : σ.phase.call .getreport = some .reporting := by rw [hphase]; rfl
  exact h.leadsToReport_call hcall fun _ hreporting hp => hreporting.of_reporting hok hr hp

include hzero

theorem Healthy.of_finishing (h : Healthy σ pending) (hphase : σ.phase = .finishing) :
    LeadsToReport R σ := by
  have hwait : σ.phase.awaits = some (.stop, .finished) := by rw [hphase]; rfl
  obtain ⟨σ₁, hrun, hfinished, hreports⟩ :=
    wait_ends hr (hok r hr) h.inv hwait (h.due.answer hwait)
  obtain ⟨_, h₁⟩ := h.run hok hzero hrun
  exact .after hrun hreports (h₁.of_finished hok hr hfinished)

theorem Healthy.of_testing (h : Healthy σ pending) (hphase : σ.phase = .testing) :
    LeadsToReport R σ := by
  have hcall : σ.phase.call .stop = some .finishing := by rw [hphase]; rfl
  exact h.leadsToReport_call hcall fun _ hfinishing hp => hfinishing.of_finishing hok hzero hr hp

theorem Healthy.of_starting (h : Healthy σ pending) (hphase : σ.phase = .starting) :
    LeadsToReport R σ := by
  have hwait : σ.phase.awaits = some (.start, .testing) := by rw [hphase]; rfl
  obtain ⟨σ₁, hrun, htesting, hreports⟩ :=
    wait_ends hr (hok r hr) h.inv hwait (h.due.answer hwait)
  obtain ⟨_, h₁⟩ := h.run hok hzero hrun
  exact .after hrun hreports (h₁.of_testing hok hzero hr htesting)

theorem Healthy.of_ready (h : Healthy σ pending) (hphase : σ.phase = .ready) :
    LeadsToReport R σ := by
  have hcall : σ.phase.call .start = some .starting := by rw [hphase]; rfl
  exact h.leadsToReport_call hcall fun _ hstarting hp => hstarting.of_starting hok hzero hr hp

theorem Healthy.leadsToReport (h : Healthy σ pending) : LeadsToReport R σ := by
  cases hphase : σ.phase with
  | ready => exact h.of_ready hok hzero hr hphase
  | starting => exact h.of_starting hok hzero hr hphase
  | testing => exact h.of_testing hok hzero hr hphase
  | finishing => exact h.of_finishing hok hzero hr hphase
  | finished => exact h.of_finished hok hr hphase
  | reporting => exact h.of_reporting hok hr hphase

omit hok hzero hr

/-- Client and server do not block each other: while nothing throws and no piece ends inside
an answer, every state of a run leads to the report of a test. -/
theorem undisturbed_run_reports {R : Bytes → Prop} (hok : ∀ r, R r → hasOk r = false)
    (hzero : ∀ r, R r → 0 ∉ r) (hmake : ∃ r, R r) {σ : System}
    (h : ReflTransGen (CleanStep R) {} σ) :
    ∃ σ', ReflTransGen (CleanStep R) σ σ' ∧ σ'.reports.length = σ.reports.length + 1 := by
  obtain ⟨r, hr⟩ := hmake
  obtain ⟨pending, hhealthy⟩ := Healthy.init.run hok hzero h
  exact hhealthy.leadsToReport hok hzero hr

/-- A test in which a packet has been read. -/
def inTest : System where
  phase := .testing
  server := .serving
  collecting := true
  up := Request.read.text
  sent := [.start, .read]
  calls := [.startTestCase]

theorem run_inTest {r : Bytes} (hr : R r) : ReflTransGen (CleanStep R) {} inTest := by
  have hwhole : ¬ ((ascii "Ready\nOk").getLast? = some 79 ∧ ([] : Bytes).head? = some 107) := by
    decide
  exact .head ⟨.call .start, trivial, trivial, rfl⟩ <|
    .head ⟨.accept, trivial, trivial, rfl⟩ <|
    .head ⟨.serve r, hr, trivial, rfl⟩ <|
    .head ⟨.receive 8, trivial, hwhole, rfl⟩ <|
    .single ⟨.call .read, trivial, trivial, rfl⟩

theorem undisturbed_run_reports_inTest :
    ∃ σ', ReflTransGen (CleanStep (· = ascii "[[3, 0, 4]]")) inTest σ' ∧
      σ'.reports.length = inTest.reports.length + 1 :=
  undisturbed_run_reports (R := (· = ascii "[[3, 0, 4]]")) (fun r hr => by rw [hr]; decide)
    (fun r hr => by rw [hr]; decide) ⟨_, rfl⟩ (run_inTest rfl)

end Undisturbed

end Stress.Monitoring

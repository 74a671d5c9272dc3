import Stress.Composite
import Mathlib.Algebra.Order.BigOperators.Group.List
import Mathlib.Data.List.Induction

/-!
# Sockets and their counters

`SocketFactory` (`lib/socket-factory.cc`) and the two calls of
`SanityCheckMonitor` (`lib/sanity-check-monitor.cc`).

The factory has a counter and a pointer for each kind of socket.  The two are kept
in step by hand: a last release deletes the socket and leaves the pointer,
`releaseAllSocket` clears the pointers and leaves the counters, and the monitor gives
a socket back by comparing pointers, which leaves out one kind.

Sockets have addresses, and an `Allocator` chooses the address of a new one.  It may
use the address of a deleted socket again.
-/

namespace Stress

/-- The address of a socket. -/
abbrev Addr := Nat

/-- The living sockets. -/
abbrev Heap := List (Addr × Transport)

/-- What `new` returns, at the time of each call: an address no living socket has. -/
structure Allocator where
  alloc : Nat → Heap → Addr
  fresh : ∀ (n : Nat) (heap : Heap), heap.lookup (alloc n heap) = none

/-- What stops a run: a socket deleted twice, a call on a deleted one, a counter past
its range. -/
inductive SocketFault where
  | deletedTwice
  | deletedSocket
  | intOverflow
deriving DecidableEq, Repr

/-- The fields of `SocketFactory` by the kind of socket, and the heap. -/
structure SocketFactory where
  count : Transport → Int := fun _ => 0
  socket : Transport → Option Addr := fun _ => none
  heap : Heap := []
  /-- How many sockets have been made. -/
  made : Nat := 0

namespace SocketFactory

/-- `delete`. -/
def delete (p : Addr) (s : SocketFactory) : Except SocketFault SocketFactory :=
  if (s.heap.lookup p).isSome then .ok { s with heap := s.heap.filter fun q => q.1 ≠ p }
  else .error .deletedTwice

/-- `newUdpSocket` and its siblings, with the assignment to the pointer. -/
def new (A : Allocator) (k : Transport) (s : SocketFactory) : SocketFactory :=
  let p := A.alloc s.made s.heap
  { s with
    socket := Function.update s.socket k (some p)
    heap := (p, k) :: s.heap
    made := s.made + 1 }

/-- The first line of `getUdpSocket`: a socket is made for the first user. -/
def ensure (A : Allocator) (k : Transport) (s : SocketFactory) : SocketFactory :=
  if s.count k = 0 then s.new A k else s

/-- `getUdpSocket` and its siblings. -/
def get (A : Allocator) (k : Transport) (s : SocketFactory) :
    Except SocketFault (Option Addr × SocketFactory) :=
  let s := s.ensure A k
  if s.count k = intMax then .error .intOverflow
  else .ok (s.socket k, { s with count := Function.update s.count k (s.count k + 1) })

/-- `releaseUdpSocket` and its siblings. -/
def release (k : Transport) (s : SocketFactory) : Except SocketFault SocketFactory :=
  let c := s.count k - 1
  match s.socket k with
  | some p =>
      if c ≤ 0 then delete p { s with count := Function.update s.count k 0 }
      else .ok { s with count := Function.update s.count k c }
  | none => .ok { s with count := Function.update s.count k c }

/-- The kind that `getSocket()` picks. -/
def inUse (s : SocketFactory) : Option Transport :=
  [Transport.udp, .tcp, .raw, .btrfcomm].find? fun k => s.count k ≠ 0

/-- `getSocket()`. -/
def getAny (A : Allocator) (s : SocketFactory) :
    Except SocketFault (Option Addr × SocketFactory) :=
  match s.inUse with
  | some k => s.get A k
  | none => .ok (none, s)

/-- The kind that `releaseSocket(Socket*)` finds for a pointer. -/
def kindOf (p : Addr) (s : SocketFactory) : Option Transport :=
  [Transport.tcp, .udp, .raw].find? fun k => s.socket k = some p

/-- `releaseSocket(Socket*)`. -/
def releasePointer (p : Addr) (s : SocketFactory) : Except SocketFault SocketFactory :=
  match s.kindOf p with
  | some k => s.release k
  | none => .ok s

/-- `if(socket) delete socket` for one kind. -/
def deleteKind (k : Transport) (s : SocketFactory) : Except SocketFault SocketFactory :=
  match s.socket k with
  | some p => (s.delete p).map fun s => { s with socket := Function.update s.socket k none }
  | none => .ok s

/-- `releaseAllSocket`.  The destructor deletes the same sockets, and then there are
no pointers any more. -/
def releaseAll (s : SocketFactory) : Except SocketFault SocketFactory :=
  [Transport.udp, .tcp, .raw, .btrfcomm].foldlM (fun s k => s.deleteKind k) s

end SocketFactory

/-- `SanityCheckMonitor` between `start_test` and `finish_test`.  `taken` is the kind
whose counter `start_test` has raised, which the code does not keep. -/
structure StartedTest where
  socket : Option Addr
  taken : Option Transport

structure Sockets where
  factory : SocketFactory := {}
  /-- `none` before `start_test` and after `finish_test`. -/
  test : Option StartedTest := none

/-- The calls of a sequence. -/
inductive SocketCall where
  | getSocket (k : Transport)
  | releaseSocket (k : Transport)
  | releaseAllSocket
  | startTest
  | finishTest
deriving DecidableEq, Repr

/-- `finish_test`, which calls `check` on the socket before it releases it. -/
def StartedTest.finish (m : StartedTest) (s : SocketFactory) :
    Except SocketFault SocketFactory :=
  match m.socket with
  | some p =>
      if (s.heap.lookup p).isSome then s.releasePointer p else .error .deletedSocket
  | none => .ok s

/-- One call.  A `finish_test` without its `start_test` is not part of a sequence. -/
def SocketCall.run (A : Allocator) (s : Sockets) : SocketCall → Except SocketFault Sockets
  | .getSocket k => (s.factory.get A k).map fun r => { s with factory := r.2 }
  | .releaseSocket k => (s.factory.release k).map fun f => { s with factory := f }
  | .releaseAllSocket => s.factory.releaseAll.map fun f => { s with factory := f }
  | .startTest => (s.factory.getAny A).map fun r => ⟨r.2, some ⟨r.1, s.factory.inUse⟩⟩
  | .finishTest =>
      match s.test with
      | some m => (m.finish s.factory).map fun f => ⟨f, none⟩
      | none => .ok s

/-- A sequence of calls on a new factory. -/
def runCalls (A : Allocator) (cs : List SocketCall) : Except SocketFault Sockets :=
  cs.foldlM (SocketCall.run A) {}

/-! ## What is claimed of a sequence -/

/-- What a sequence has obtained and not given back, and whether a test is running. -/
abbrev Held := (Transport → Nat) × Bool

/-- One call of a use: no kind is released more often than it was obtained, and every
`finish_test` follows its `start_test`. -/
def SocketCall.after (h : Held) : SocketCall → Option Held
  | .getSocket k => some (Function.update h.1 k (h.1 k + 1), h.2)
  | .releaseSocket k =>
      if 0 < h.1 k then some (Function.update h.1 k (h.1 k - 1), h.2) else none
  | .releaseAllSocket => some h
  | .startTest => if h.2 then none else some (h.1, true)
  | .finishTest => if h.2 then some (h.1, false) else none

def heldAfter (cs : List SocketCall) : Option Held :=
  cs.foldlM SocketCall.after (fun _ => 0, false)

/-- What a running test has added to the counter of a kind. -/
def raised (taken : Option Transport) (k : Transport) : Int := if taken = some k then 1 else 0

/-- A call for a socket of a kind returns a living socket of this kind. -/
def Obtains (A : Allocator) (k : Transport) (s : SocketFactory) : Prop :=
  ∃ p s', s.get A k = .ok (some p, s') ∧ s'.heap.lookup p = some k

/-- One call does what it is for. -/
def SocketCall.Behaves (A : Allocator) (s : Sockets) : SocketCall → Prop
  | .getSocket k => Obtains A k s.factory
  | .startTest => ∀ k, s.factory.inUse = some k → Obtains A k s.factory
  | .finishTest => ∀ m, s.test = some m → ∃ f, m.finish s.factory = .ok f ∧
      ∀ k, f.count k = s.factory.count k - raised m.taken k
  | .releaseSocket k => ∃ f, s.factory.release k = .ok f
  | .releaseAllSocket => ∃ f, s.factory.releaseAll = .ok f

/-- The kind has been given back and its deleted socket is still pointed to. -/
def SocketFactory.Dangling (s : SocketFactory) (k : Transport) : Prop :=
  s.count k = 0 ∧ s.socket k ≠ none

/-- A kind can be obtained: it is not in use, or its pointer has not been cleared. -/
def SocketFactory.Obtainable (s : SocketFactory) (k : Transport) : Prop :=
  (s.count k ≠ 0 → s.socket k ≠ none) ∧ s.count k ≠ intMax

/-- When a call does what it is for. -/
def SocketCall.Safe (s : Sockets) : SocketCall → Prop
  | .getSocket k => s.factory.Obtainable k
  | .startTest => ∀ k, s.factory.inUse = some k → s.factory.Obtainable k
  | .finishTest => ∀ m p, s.test = some m → m.socket = some p →
      s.factory.kindOf p = m.taken
  | .releaseSocket _ => True
  | .releaseAllSocket => ∀ k, ¬ s.factory.Dangling k

/-! ## The invariant -/

/-- The kind whose counter a running test has raised. -/
def Sockets.taken (s : Sockets) : Option Transport := s.test.bind StartedTest.taken

/-- What holds as long as every call has been safe, where `held` counts what the
sequence has obtained and not given back. -/
structure Sockets.Inv (s : Sockets) (held : Transport → Nat) (started : Bool) : Prop where
  count_eq : ∀ k, s.factory.count k = held k + raised s.taken k
  living : ∀ k p, s.factory.heap.lookup p = some k ↔
    s.factory.socket k = some p ∧ 0 < s.factory.count k
  started_iff : started = true ↔ s.test.isSome = true
  socket_none : ∀ m, s.test = some m → (m.socket = none ↔ m.taken = none)

@[simp] theorem raised_none (k : Transport) : raised none k = 0 := rfl

@[simp] theorem raised_self (k : Transport) : raised (some k) k = 1 := if_pos rfl

theorem raised_of_ne {j k : Transport} (h : j ≠ k) : raised (some j) k = 0 :=
  if_neg fun heq => h (Option.some.inj heq)

theorem raised_nonneg (t : Option Transport) (k : Transport) : 0 ≤ raised t k := by
  unfold raised
  split <;> decide

theorem lookup_filter_ne {α : Type} (l : List (Addr × α)) (p q : Addr) :
    (l.filter fun x => x.1 ≠ p).lookup q = if q = p then none else l.lookup q := by
  induction l with
  | nil => rw [List.filter_nil, List.lookup_nil, ite_self]
  | cons x l ih =>
      rw [List.filter_cons, List.lookup_cons]
      by_cases hx : x.1 = p
      · rw [if_neg (by simp [hx]), ih]
        by_cases hq : q = p
        · rw [if_pos hq, if_pos hq]
        · rw [if_neg hq, if_neg hq, hx, beq_eq_false_iff_ne.mpr hq]
      · rw [if_pos (by simp [hx]), List.lookup_cons, ih]
        by_cases hq : q = p
        · have hne : (q == x.1) = false := beq_eq_false_iff_ne.mpr fun heq => hx (heq ▸ hq)
          rw [if_pos hq, hne]
          simp [hq]
        · rw [if_neg hq, if_neg hq]

namespace SocketFactory

variable {A : Allocator} {s s' : SocketFactory} {k j : Transport} {p : Addr}

/-- The pointers, the counters and the heap agree. -/
def Agrees (s : SocketFactory) : Prop :=
  (∀ k, 0 ≤ s.count k) ∧
    ∀ k p, s.heap.lookup p = some k ↔ s.socket k = some p ∧ 0 < s.count k

theorem delete_ok : s.delete p = .ok s' ↔ (s.heap.lookup p).isSome = true ∧
    s' = { s with heap := s.heap.filter fun q => q.1 ≠ p } := by
  unfold delete
  split
  · next h => exact ⟨fun heq => by cases heq; exact ⟨h, rfl⟩, fun heq => by rw [heq.2]⟩
  · next h => exact ⟨nofun, fun heq => absurd heq.1 h⟩

theorem count_ensure : (s.ensure A k).count = s.count := by
  unfold ensure
  split <;> rfl

theorem get_ok {r : Option Addr} : s.get A k = .ok (r, s') ↔ s.count k ≠ intMax ∧
    r = (s.ensure A k).socket k ∧
    s' = { s.ensure A k with count := Function.update s.count k (s.count k + 1) } := by
  unfold get
  simp only [count_ensure]
  split
  · next h => exact ⟨nofun, fun heq => absurd h heq.1⟩
  · next h =>
      constructor
      · intro heq
        cases heq
        exact ⟨h, rfl, rfl⟩
      · rintro ⟨_, rfl, rfl⟩
        rfl

/-- Getting a kind raises its counter by one. -/
theorem count_get {r : Option Addr} (h : s.get A k = .ok (r, s')) (j : Transport) :
    s'.count j = s.count j + if k = j then 1 else 0 := by
  obtain ⟨_, _, rfl⟩ := get_ok.mp h
  by_cases hkj : k = j
  · subst hkj
    simp only [Function.update_self, if_pos]
  · simp only [Function.update_of_ne (Ne.symm hkj), if_neg hkj, Int.add_zero]

/-- A kind that can be obtained is obtained, and everything still agrees. -/
theorem Agrees.get (h : s.Agrees) (hk : s.Obtainable k) :
    ∃ p s', s.get A k = .ok (some p, s') ∧ s'.heap.lookup p = some k ∧ s'.Agrees := by
  obtain ⟨hpos, hliving⟩ := h
  have hcount : ∀ j, 0 ≤ (Function.update s.count k (s.count k + 1)) j := by
    intro j
    have hj := hpos j
    have hkk := hpos k
    by_cases hjk : j = k
    · subst hjk
      rw [Function.update_self]
      omega
    · rwa [Function.update_of_ne hjk]
  by_cases hzero : s.count k = 0
  · have hfresh := A.fresh s.made s.heap
    generalize hp : A.alloc s.made s.heap = p at hfresh
    have hens : s.ensure A k = { s with
        socket := Function.update s.socket k (some p)
        heap := (p, k) :: s.heap
        made := s.made + 1 } := by
      rw [ensure, if_pos hzero, new, hp]
    refine ⟨p, _, get_ok.mpr ⟨hk.2, ?_, rfl⟩, ?_, hcount, ?_⟩
    · rw [hens]
      exact (Function.update_self k (some p) s.socket).symm
    · simp only [hens, List.lookup_cons, beq_self_eq_true]
    · intro i q
      simp only [hens, List.lookup_cons]
      by_cases hq : q = p
      · subst hq
        simp only [beq_self_eq_true, Option.some.injEq]
        by_cases hi : i = k
        · subst hi
          simp only [Function.update_self, hzero]
          exact ⟨fun _ => ⟨trivial, by omega⟩, fun _ => trivial⟩
        · rw [Function.update_of_ne hi, Function.update_of_ne hi]
          refine ⟨fun heq => absurd heq.symm hi, fun hsock => ?_⟩
          rw [(hliving i q).mpr hsock] at hfresh
          cases hfresh
      · rw [beq_eq_false_iff_ne.mpr hq]
        simp only [hliving]
        by_cases hi : i = k
        · subst hi
          rw [Function.update_self, Function.update_self]
          refine ⟨fun hsock => ?_, fun hsock => ?_⟩
          · omega
          · exact absurd (Option.some.inj hsock.1).symm hq
        · rw [Function.update_of_ne hi, Function.update_of_ne hi]
  · obtain ⟨p, hp⟩ := Option.ne_none_iff_exists'.mp (hk.1 hzero)
    have hkk := hpos k
    have hens : s.ensure A k = s := by rw [ensure, if_neg hzero]
    refine ⟨p, _, get_ok.mpr ⟨hk.2, ?_, rfl⟩, ?_, hcount, ?_⟩
    · rw [hens, hp]
    · rw [hens]
      exact (hliving k p).mpr ⟨hp, by omega⟩
    · intro i q
      rw [hens]
      simp only [hliving]
      by_cases hi : i = k
      · subst hi
        rw [Function.update_self]
        exact and_congr_right fun _ => ⟨fun _ => by omega, fun _ => by omega⟩
      · rw [Function.update_of_ne hi]

theorem obtains_iff (h : s.Agrees) : Obtains A k s ↔ s.Obtainable k := by
  constructor
  · rintro ⟨p, s', hget, hp⟩
    obtain ⟨hmax, hr, rfl⟩ := get_ok.mp hget
    refine ⟨fun hne hnone => ?_, hmax⟩
    rw [ensure, if_neg hne, hnone] at hr
    cases hr
  · intro hk
    obtain ⟨p, s', hget, hp, _⟩ := h.get (A := A) hk
    exact ⟨p, s', hget, hp⟩

/-! ## Releasing -/

theorem count_release_of_ne (h : s.release k = .ok s') (hne : j ≠ k) : s'.count j = s.count j := by
  unfold release at h
  simp only at h
  split at h
  · split at h
    · obtain ⟨_, rfl⟩ := delete_ok.mp h
      exact Function.update_of_ne hne _ _
    · cases h
      exact Function.update_of_ne hne _ _
  · cases h
    exact Function.update_of_ne hne _ _

/-- A kind that is in use is released, and everything still agrees. -/
theorem Agrees.release (h : s.Agrees) (hk : 0 < s.count k) :
    ∃ s', s.release k = .ok s' ∧ s'.count k = s.count k - 1 ∧ s'.Agrees := by
  obtain ⟨hpos, hliving⟩ := h
  have hcount : ∀ c, 0 ≤ c → ∀ j, 0 ≤ (Function.update s.count k c) j := by
    intro c hc j
    by_cases hjk : j = k
    · subst hjk
      rwa [Function.update_self]
    · rw [Function.update_of_ne hjk]
      exact hpos j
  unfold SocketFactory.release
  cases hsock : s.socket k with
  | none =>
      refine ⟨_, rfl, Function.update_self _ _ _, hcount _ (by omega), fun i q => ?_⟩
      simp only [hliving]
      by_cases hi : i = k
      · subst hi
        rw [hsock]
        exact ⟨nofun, nofun⟩
      · rw [Function.update_of_ne hi]
  | some p =>
      have hp : s.heap.lookup p = some k := (hliving k p).mpr ⟨hsock, hk⟩
      by_cases hlast : s.count k - 1 ≤ 0
      · have hdel := delete_ok (s := { s with count := Function.update s.count k 0 }).mpr
          ⟨by rw [hp]; rfl, rfl⟩
        simp only [if_pos hlast]
        refine ⟨_, hdel, ?_, hcount 0 (by omega), fun i q => ?_⟩
        · simp only [Function.update_self]
          omega
        · simp only [lookup_filter_ne]
          by_cases hi : i = k
          · subst hi
            simp only [Function.update_self, Int.lt_irrefl, and_false, iff_false]
            split
            · exact nofun
            · next hq =>
                intro hlive
                have := ((hliving i q).mp hlive).1
                rw [hsock] at this
                exact hq (Option.some.inj this).symm
          · rw [Function.update_of_ne hi, ← hliving]
            split
            · next hq =>
                subst hq
                rw [hp]
                exact ⟨nofun, fun heq => absurd (Option.some.inj heq).symm hi⟩
            · exact Iff.rfl
      · simp only [if_neg hlast]
        refine ⟨_, rfl, Function.update_self _ _ _, hcount _ (by omega), fun i q => ?_⟩
        simp only [hliving]
        by_cases hi : i = k
        · subst hi
          rw [Function.update_self]
          exact and_congr_right fun _ => ⟨fun _ => by omega, fun _ => hk⟩
        · rw [Function.update_of_ne hi]

/-! ## Releasing everything -/

theorem deleteKind_ok (h : s.deleteKind k = .ok s') :
    s'.count = s.count ∧ s'.socket = Function.update s.socket k none ∧
      (∀ p, s.socket k = some p → (s.heap.lookup p).isSome = true) ∧
      ∀ q, s'.heap.lookup q = if s.socket k = some q then none else s.heap.lookup q := by
  unfold deleteKind at h
  cases hsock : s.socket k with
  | none =>
      rw [hsock] at h
      cases h
      exact ⟨rfl, by rw [← hsock, Function.update_eq_self], nofun, fun q => (if_neg nofun).symm⟩
  | some p =>
      rw [hsock] at h
      cases hdel : s.delete p with
      | error x =>
          simp only [hdel] at h
          cases h
      | ok t =>
          simp only [hdel] at h
          cases h
          obtain ⟨hp, rfl⟩ := delete_ok.mp hdel
          refine ⟨rfl, rfl, fun q hq => Option.some.inj hq ▸ hp, fun q => ?_⟩
          simp only [lookup_filter_ne, Option.some.injEq, eq_comm]

/-- Where a kind does not dangle, deleting it keeps everything in agreement. -/
theorem Agrees.deleteKind (h : s.Agrees) (hk : ¬ s.Dangling k) :
    ∃ s', s.deleteKind k = .ok s' ∧ s'.Agrees := by
  obtain ⟨hpos, hliving⟩ := h
  have hagrees : ∀ s', s.deleteKind k = .ok s' → s'.Agrees := by
    intro s' hs'
    obtain ⟨hcount, hsocket, _, hheap⟩ := deleteKind_ok hs'
    refine ⟨fun j => by rw [hcount]; exact hpos j, fun i q => ?_⟩
    rw [hheap, hcount, hsocket]
    by_cases hi : i = k
    · subst hi
      rw [Function.update_self]
      refine ⟨fun hq => ?_, nofun⟩
      split at hq
      · cases hq
      · next hne => exact absurd ((hliving i q).mp hq).1 hne
    · rw [Function.update_of_ne hi, ← hliving]
      split
      · next hsock =>
          refine ⟨nofun, fun hq => ?_⟩
          have hne : s.count k ≠ 0 := fun hzero => hk ⟨hzero, by rw [hsock]; exact nofun⟩
          have hk' := (hliving k q).mpr ⟨hsock, lt_of_le_of_ne (hpos k) (Ne.symm hne)⟩
          rw [hk'] at hq
          exact absurd (Option.some.inj hq).symm hi
      · exact Iff.rfl
  cases hdel : s.deleteKind k with
  | ok s' => exact ⟨s', rfl, hagrees s' hdel⟩
  | error x =>
      unfold SocketFactory.deleteKind at hdel
      cases hsock : s.socket k with
      | none =>
          rw [hsock] at hdel
          cases hdel
      | some p =>
          have hne : s.count k ≠ 0 := fun hzero => hk ⟨hzero, by rw [hsock]; exact nofun⟩
          have hp := (hliving k p).mpr ⟨hsock, lt_of_le_of_ne (hpos k) (Ne.symm hne)⟩
          rw [hsock] at hdel
          simp only [delete_ok.mpr ⟨by rw [hp]; rfl, rfl⟩] at hdel
          cases hdel

theorem dangling_deleteKind (h : s.deleteKind k = .ok s') (hj : j ≠ k) :
    s'.Dangling j ↔ s.Dangling j := by
  obtain ⟨hcount, hsocket, _, _⟩ := deleteKind_ok h
  rw [Dangling, Dangling, hcount, hsocket, Function.update_of_ne hj]

theorem not_dangling_deleteKind (h : s.deleteKind k = .ok s') : ¬ s'.Dangling k := by
  obtain ⟨_, hsocket, _, _⟩ := deleteKind_ok h
  rintro ⟨_, hsock⟩
  rw [hsocket] at hsock
  exact hsock (Function.update_self _ _ _)

theorem foldlM_cons_ok {ks : List Transport} :
    (k :: ks).foldlM (fun s k => s.deleteKind k) s = .ok s' ↔
      ∃ t, s.deleteKind k = .ok t ∧ ks.foldlM (fun s k => s.deleteKind k) t = .ok s' := by
  rw [List.foldlM_cons]
  cases s.deleteKind k with
  | error x => exact ⟨nofun, fun ⟨_, h, _⟩ => by cases h⟩
  | ok t => exact ⟨fun h => ⟨t, rfl, h⟩, fun ⟨_, h, h'⟩ => by cases h; exact h'⟩

/-- A socket that is gone cannot be deleted through a pointer that is left. -/
theorem foldlM_ne_ok {ks : List Transport} (hj : j ∈ ks) (hsock : s.socket j = some p)
    (hp : s.heap.lookup p = none) :
    ks.foldlM (fun s k => s.deleteKind k) s ≠ .ok s' := by
  induction ks generalizing s with
  | nil => cases hj
  | cons k ks ih =>
      intro h
      obtain ⟨t, hdel, hrest⟩ := foldlM_cons_ok.mp h
      obtain ⟨_, hsocket, hliving, hheap⟩ := deleteKind_ok hdel
      by_cases hjk : j = k
      · subst hjk
        have hsome := hliving p hsock
        rw [hp] at hsome
        cases hsome
      · refine ih ((List.mem_cons.mp hj).resolve_left hjk) ?_ ?_ hrest
        · rw [hsocket, Function.update_of_ne hjk]
          exact hsock
        · rw [hheap, hp, ite_self]

/-- Deleting kinds one after the other, where the pointers of all others are null. -/
theorem Agrees.foldlM_deleteKind {ks : List Transport} (h : s.Agrees) (hks : ks.Nodup)
    (hrest : ∀ j, j ∉ ks → s.socket j = none) :
    (∀ k, ¬ s.Dangling k) ∧ (∃ s', ks.foldlM (fun s k => s.deleteKind k) s = .ok s' ∧
        s'.Agrees ∧ s'.count = s.count) ∨
      (∃ k, s.Dangling k) ∧ ∀ s', ks.foldlM (fun s k => s.deleteKind k) s ≠ .ok s' := by
  induction ks generalizing s with
  | nil =>
      exact .inl ⟨fun k hk => hk.2 (hrest k List.not_mem_nil), s, rfl, h, rfl⟩
  | cons k ks ih =>
      obtain ⟨hk, hnodup⟩ := List.nodup_cons.mp hks
      by_cases hdang : s.Dangling k
      · refine .inr ⟨⟨k, hdang⟩, fun s' hs' => ?_⟩
        obtain ⟨t, hdel, hfold⟩ := foldlM_cons_ok.mp hs'
        obtain ⟨_, hsocket, hliving, hheap⟩ := deleteKind_ok hdel
        obtain ⟨p, hp⟩ := Option.ne_none_iff_exists'.mp hdang.2
        -- The address lives on as a socket of another kind, which is still to come.
        obtain ⟨i, hi⟩ := Option.isSome_iff_exists.mp (hliving p hp)
        obtain ⟨hsock, hcount⟩ := (h.2 i p).mp hi
        have hik : i ≠ k := by
          rintro rfl
          rw [hdang.1] at hcount
          exact absurd hcount (Int.lt_irrefl 0)
        have hmem : i ∈ k :: ks := by
          refine Decidable.byContradiction fun hnot => ?_
          rw [hrest i hnot] at hsock
          cases hsock
        refine foldlM_ne_ok (p := p) ((List.mem_cons.mp hmem).resolve_left hik) ?_ ?_ hfold
        · rw [hsocket, Function.update_of_ne hik]
          exact hsock
        · rw [hheap, if_pos hp]
      · obtain ⟨t, hdel, hagrees⟩ := h.deleteKind hdang
        obtain ⟨hcount, hsocket, _, _⟩ := deleteKind_ok hdel
        have hnone : ∀ j, j ∉ ks → t.socket j = none := by
          intro j hj
          rw [hsocket]
          by_cases hjk : j = k
          · subst hjk
            rw [Function.update_self]
          · rw [Function.update_of_ne hjk]
            exact hrest j fun hmem => hj ((List.mem_cons.mp hmem).resolve_left hjk)
        obtain ⟨hfree, s', hs', ha, hc⟩ | ⟨⟨i, hi⟩, hno⟩ := ih hagrees hnodup hnone
        · refine .inl ⟨fun j hj => ?_, s', foldlM_cons_ok.mpr ⟨t, hdel, hs'⟩, ha, hc.trans hcount⟩
          by_cases hjk : j = k
          · exact hdang (hjk ▸ hj)
          · exact hfree j ((dangling_deleteKind hdel hjk).mpr hj)
        · refine .inr ⟨⟨i, ?_⟩, fun s' hs' => ?_⟩
          · have hik : i ≠ k := fun heq => not_dangling_deleteKind hdel (heq ▸ hi)
            exact (dangling_deleteKind hdel hik).mp hi
          · obtain ⟨t', hdel', hfold⟩ := foldlM_cons_ok.mp hs'
            rw [hdel] at hdel'
            cases hdel'
            exact hno s' hfold

/-- Everything is released without a second deletion if and only if no kind dangles. -/
theorem Agrees.releaseAll_cases (h : s.Agrees) :
    (∀ k, ¬ s.Dangling k) ∧ (∃ s', s.releaseAll = .ok s' ∧ s'.Agrees ∧ s'.count = s.count) ∨
      (∃ k, s.Dangling k) ∧ ∀ s', s.releaseAll ≠ .ok s' := by
  refine h.foldlM_deleteKind (by decide) fun j hj => ?_
  cases j <;> simp at hj

theorem Agrees.releaseAll_iff (h : s.Agrees) :
    (∃ s', s.releaseAll = .ok s') ↔ ∀ k, ¬ s.Dangling k := by
  obtain ⟨hfree, s', hs', _⟩ | ⟨⟨k, hk⟩, hno⟩ := h.releaseAll_cases
  · exact ⟨fun _ => hfree, fun _ => ⟨s', hs'⟩⟩
  · exact ⟨fun ⟨s', hs'⟩ => absurd hs' (hno s'), fun hfree => absurd hk (hfree k)⟩

/-! ## The monitor -/

theorem kindOf_socket (h : s.kindOf p = some k) : s.socket k = some p :=
  by simpa using List.find?_some h

end SocketFactory

open SocketFactory

variable {A : Allocator}

/-- The pair of `start_test` and `finish_test` leaves the counters as they were if and
only if the pointer leads back to the kind that was taken. -/
theorem finish_iff {s : SocketFactory} {m : StartedTest} (h : s.Agrees)
    (hnone : m.socket = none ↔ m.taken = none) (htaken : ∀ k, m.taken = some k → 0 < s.count k) :
    (∃ f, m.finish s = .ok f ∧ ∀ k, f.count k = s.count k - raised m.taken k) ↔
      ∀ p, m.socket = some p → s.kindOf p = m.taken := by
  constructor
  · rintro ⟨f, hf, hcount⟩ p hp
    have hsome : m.taken ≠ none := fun heq => by
      rw [hnone.mpr heq] at hp
      cases hp
    obtain ⟨j, hj⟩ := Option.ne_none_iff_exists'.mp hsome
    have hlower : f.count j = s.count j - 1 := by rw [hcount j, hj, raised_self]
    simp only [StartedTest.finish, hp] at hf
    split at hf
    · rw [releasePointer] at hf
      cases hk : s.kindOf p with
      | none =>
          rw [hk] at hf
          cases hf
          omega
      | some c =>
          rw [hk] at hf
          by_cases hcj : c = j
          · rw [hcj, hj]
          · have hsame := count_release_of_ne hf (Ne.symm hcj)
            omega
    · cases hf
  · intro hkind
    cases hp : m.socket with
    | none =>
        refine ⟨s, by rw [StartedTest.finish, hp], fun k => ?_⟩
        rw [hnone.mp hp, raised_none, Int.sub_zero]
    | some p =>
        have hk := hkind p hp
        cases hj : m.taken with
        | none =>
            rw [hnone.mpr hj] at hp
            cases hp
        | some j =>
            rw [hj] at hk
            have hpos := htaken j hj
            have hlive := (h.2 j p).mpr ⟨kindOf_socket hk, hpos⟩
            obtain ⟨f, hf, hcount, _⟩ := h.release hpos
            refine ⟨f, ?_, fun k => ?_⟩
            · rw [StartedTest.finish, hp]
              simp only [hlive, Option.isSome_some, if_true, releasePointer, hk]
              exact hf
            · by_cases hkj : j = k
              · subst hkj
                rw [raised_self]
                exact hcount
              · rw [count_release_of_ne hf (Ne.symm hkj), raised_of_ne hkj, Int.sub_zero]

/-- A finished test keeps everything in agreement. -/
theorem finish_agrees {s f : SocketFactory} {m : StartedTest} (h : s.Agrees)
    (htaken : ∀ k, m.taken = some k → 0 < s.count k)
    (hkind : ∀ p, m.socket = some p → s.kindOf p = m.taken) (hf : m.finish s = .ok f) :
    f.Agrees := by
  unfold StartedTest.finish at hf
  split at hf
  · next p hp =>
      split at hf
      · rw [releasePointer, hkind p hp] at hf
        cases hj : m.taken with
        | none =>
            rw [hj] at hf
            cases hf
            exact h
        | some j =>
            rw [hj] at hf
            obtain ⟨f', hf', _, ha⟩ := h.release (htaken j hj)
            have hok : s.release j = .ok f := hf
            rw [hf'] at hok
            cases hok
            exact ha
      · cases hf
  · cases hf
    exact h

/-! ## One call -/

theorem Sockets.Inv.agrees {s : Sockets} {held : Transport → Nat} {started : Bool}
    (h : s.Inv held started) : s.factory.Agrees := by
  refine ⟨fun k => ?_, h.living⟩
  rw [h.count_eq]
  have hraised := raised_nonneg s.taken k
  omega

/-- One safe call of a use keeps the invariant. -/
theorem Sockets.Inv.run {s : Sockets} {h h' : Held} {c : SocketCall} (hinv : s.Inv h.1 h.2)
    (hafter : c.after h = some h') (hsafe : c.Safe s) :
    ∃ s', c.run A s = .ok s' ∧ s'.Inv h'.1 h'.2 := by
  have ha := hinv.agrees
  have hget : ∀ k, s.factory.Obtainable k → ∃ p f, s.factory.get A k = .ok (some p, f) ∧
      f.Agrees ∧ ∀ j, f.count j = s.factory.count j + if k = j then 1 else 0 := by
    intro k hk
    obtain ⟨p, f, hf, _, hagrees⟩ := ha.get hk
    exact ⟨p, f, hf, hagrees, count_get hf⟩
  cases c with
  | getSocket k =>
      obtain ⟨p, f, hf, hagrees, hcount⟩ := hget k hsafe
      cases hafter
      refine ⟨{ s with factory := f }, by rw [SocketCall.run, hf]; rfl, ?_, hagrees.2,
        hinv.started_iff, hinv.socket_none⟩
      intro j
      have heq : f.count j = h.1 j + raised s.taken j + if k = j then 1 else 0 := by
        rw [hcount, hinv.count_eq]
      by_cases hkj : k = j
      · subst hkj
        rw [if_pos rfl] at heq
        simp only [Function.update_self]
        rw [heq]
        exact Int.add_right_comm _ _ _
      · rw [if_neg hkj, Int.add_zero] at heq
        simp only [Function.update_of_ne (Ne.symm hkj)]
        exact heq
  | releaseSocket k =>
      rw [SocketCall.after] at hafter
      split at hafter
      · next hheld =>
          cases hafter
          have hpos : 0 < s.factory.count k := by
            rw [hinv.count_eq]
            have hraised := raised_nonneg s.taken k
            omega
          obtain ⟨f, hf, hcount, hagrees⟩ := ha.release hpos
          refine ⟨{ s with factory := f }, by rw [SocketCall.run, hf]; rfl, ?_, hagrees.2,
            hinv.started_iff, hinv.socket_none⟩
          intro j
          have heq := hinv.count_eq j
          by_cases hjk : j = k
          · subst hjk
            have hcount' : f.count j = h.1 j + raised s.taken j - 1 := by rw [hcount, heq]
            have htaken : ({ s with factory := f } : Sockets).taken = s.taken := rfl
            simp only [Function.update_self]
            rw [hcount', htaken]
            omega
          · simp only [Function.update_of_ne hjk]
            exact (count_release_of_ne hf hjk).trans heq
      · cases hafter
  | releaseAllSocket =>
      cases hafter
      obtain ⟨_, f, hf, hagrees, hcount⟩ | ⟨⟨k, hk⟩, _⟩ := ha.releaseAll_cases
      · refine ⟨{ s with factory := f }, by rw [SocketCall.run, hf]; rfl, ?_, hagrees.2,
          hinv.started_iff, hinv.socket_none⟩
        intro j
        simp only [hcount]
        exact hinv.count_eq j
      · exact absurd hk (hsafe k)
  | startTest =>
      rw [SocketCall.after] at hafter
      split at hafter
      · cases hafter
      · next hstarted =>
          cases hafter
          have htest : s.test = none := by
            rw [← Option.not_isSome_iff_eq_none, ← hinv.started_iff]
            exact hstarted
          have hcount₀ : ∀ j, s.factory.count j = h.1 j := by
            intro j
            have heq := hinv.count_eq j
            rw [Sockets.taken, htest] at heq
            simpa using heq
          cases hk : s.factory.inUse with
          | none =>
              refine ⟨⟨s.factory, some ⟨none, none⟩⟩, ?_, ?_, ha.2, ?_, ?_⟩
              · rw [SocketCall.run, getAny, hk]
                rfl
              · intro j
                simp [Sockets.taken, hcount₀]
              · exact ⟨fun _ => rfl, fun _ => rfl⟩
              · rintro m hm
                cases hm
                exact ⟨fun _ => rfl, fun _ => rfl⟩
          | some k =>
              obtain ⟨p, f, hf, hagrees, hcount⟩ := hget k (hsafe k hk)
              refine ⟨⟨f, some ⟨some p, some k⟩⟩, ?_, ?_, hagrees.2, ?_, ?_⟩
              · rw [SocketCall.run, getAny, hk]
                simp only [hf]
                rfl
              · intro j
                simp [Sockets.taken, hcount, hcount₀, raised]
              · exact ⟨fun _ => rfl, fun _ => rfl⟩
              · rintro m hm
                cases hm
                exact ⟨nofun, nofun⟩
  | finishTest =>
      rw [SocketCall.after] at hafter
      split at hafter
      · next hstarted =>
          cases hafter
          obtain ⟨m, hm⟩ := Option.isSome_iff_exists.mp (hinv.started_iff.mp hstarted)
          have htaken : ∀ k, m.taken = some k → 0 < s.factory.count k := by
            intro k hk
            rw [hinv.count_eq, Sockets.taken, hm, Option.bind_some, hk, raised_self]
            omega
          obtain ⟨f, hf, hcount⟩ := (finish_iff ha (hinv.socket_none m hm) htaken).mpr
            fun p hp => hsafe m p hm hp
          have hagrees := finish_agrees ha htaken (fun p hp => hsafe m p hm hp) hf
          refine ⟨⟨f, none⟩, ?_, ?_, hagrees.2, ⟨nofun, nofun⟩, nofun⟩
          · rw [SocketCall.run, hm]
            simp only [hf]
            rfl
          · intro j
            have heq := hinv.count_eq j
            rw [Sockets.taken, hm, Option.bind_some] at heq
            rw [hcount, heq]
            simp [Sockets.taken]
      · cases hafter

/-- Under the invariant a call does what it is for if and only if it is safe. -/
theorem Sockets.Inv.behaves_iff {s : Sockets} {h h' : Held} {c : SocketCall}
    (hinv : s.Inv h.1 h.2) (hafter : c.after h = some h') : c.Behaves A s ↔ c.Safe s := by
  have ha := hinv.agrees
  cases c with
  | getSocket k => exact obtains_iff ha
  | startTest => exact forall₂_congr fun k _ => obtains_iff ha
  | releaseAllSocket => exact ha.releaseAll_iff
  | releaseSocket k =>
      refine ⟨fun _ => trivial, fun _ => ?_⟩
      rw [SocketCall.after] at hafter
      split at hafter
      · next hheld =>
          have hpos : 0 < s.factory.count k := by
            rw [hinv.count_eq]
            have hraised := raised_nonneg s.taken k
            omega
          obtain ⟨f, hf, _⟩ := ha.release hpos
          exact ⟨f, hf⟩
      · cases hafter
  | finishTest =>
      have hiff : ∀ m, s.test = some m → ((∃ f, m.finish s.factory = .ok f ∧
          ∀ k, f.count k = s.factory.count k - raised m.taken k) ↔
            ∀ p, m.socket = some p → s.factory.kindOf p = m.taken) := by
        intro m hm
        refine finish_iff ha (hinv.socket_none m hm) fun k hk => ?_
        rw [hinv.count_eq, Sockets.taken, hm, Option.bind_some, hk, raised_self]
        omega
      constructor
      · exact fun hb m p hm hp => (hiff m hm).mp (hb m hm) p hp
      · exact fun hsafe m hm => (hiff m hm).mpr fun p hp => hsafe m p hm hp

/-! ## Whole sequences -/

/-- Every call of the sequence does what it is for, and so does the destructor. -/
def BehavesAlong (A : Allocator) (cs : List SocketCall) : Prop :=
  (∀ p c s, p ++ [c] <+: cs → runCalls A p = .ok s → c.Behaves A s) ∧
    ∀ s, runCalls A cs = .ok s → ∃ f, s.factory.releaseAll = .ok f

/-- Every call of the sequence is safe, and so is the destructor. -/
def SafeAlong (A : Allocator) (cs : List SocketCall) : Prop :=
  (∀ p c s, p ++ [c] <+: cs → runCalls A p = .ok s → c.Safe s) ∧
    ∀ s, runCalls A cs = .ok s → ∀ k, ¬ s.factory.Dangling k

theorem runCalls_append (p : List SocketCall) (c : SocketCall) :
    runCalls A (p ++ [c]) = (runCalls A p).bind (SocketCall.run A · c) := by
  rw [runCalls, List.foldlM_append]
  simp only [List.foldlM_cons, List.foldlM_nil, bind_pure]
  rfl

theorem heldAfter_append (p : List SocketCall) (c : SocketCall) :
    heldAfter (p ++ [c]) = (heldAfter p).bind (SocketCall.after · c) := by
  rw [heldAfter, List.foldlM_append]
  simp only [List.foldlM_cons, List.foldlM_nil, bind_pure]
  rfl

/-- The invariant holds along a sequence as long as its calls do what they are for. -/
theorem inv_along {cs : List SocketCall} (huse : (heldAfter cs).isSome = true)
    (hgood : ∀ p c s, p ++ [c] <+: cs → runCalls A p = .ok s → c.Behaves A s ∨ c.Safe s)
    (p : List SocketCall) (hp : p <+: cs) :
    ∃ s h, runCalls A p = .ok s ∧ heldAfter p = some h ∧ s.Inv h.1 h.2 := by
  have hused : ∀ q, q <+: cs → (heldAfter q).isSome = true := by
    rintro q ⟨r, rfl⟩
    rw [heldAfter, List.foldlM_append] at huse
    cases hq : heldAfter q with
    | some h => rfl
    | none =>
        rw [heldAfter] at hq
        rw [hq] at huse
        cases huse
  induction p using List.reverseRecOn with
  | nil =>
      refine ⟨{}, (fun _ => 0, false), rfl, rfl, fun k => ?_, fun k q => ⟨nofun, nofun⟩,
        ⟨nofun, nofun⟩, nofun⟩
      simp [Sockets.taken]
  | append_singleton p c ih =>
      obtain ⟨s, h, hs, hh, hinv⟩ := ih ((List.prefix_append p [c]).trans hp)
      obtain ⟨h', hh'⟩ := Option.isSome_iff_exists.mp (hused _ hp)
      have hafter : c.after h = some h' := by
        rw [heldAfter_append, hh] at hh'
        exact hh'
      have hsafe : c.Safe s := (hgood p c s hp hs).elim (hinv.behaves_iff hafter).mp id
      obtain ⟨s', hs', hinv'⟩ := hinv.run (A := A) hafter hsafe
      refine ⟨s', h', ?_, hh', hinv'⟩
      rw [runCalls_append, hs]
      exact hs'

/-- In a use of the factory every call does what it is for, and no socket is deleted
twice, if and only if every call is safe and nothing dangles at the end. -/
theorem sockets_behave_iff (A : Allocator) (cs : List SocketCall)
    (huse : (heldAfter cs).isSome = true) : BehavesAlong A cs ↔ SafeAlong A cs := by
  have hstep : ∀ p c s, p ++ [c] <+: cs → runCalls A p = .ok s →
      (∃ h, heldAfter p = some h ∧ s.Inv h.1 h.2) → (c.Behaves A s ↔ c.Safe s) := by
    rintro p c s hp hs ⟨h, hh, hinv⟩
    obtain ⟨r, hr⟩ := hp
    have hsome : (heldAfter (p ++ [c])).isSome = true := by
      rw [← hr, heldAfter, List.foldlM_append] at huse
      cases hq : heldAfter (p ++ [c]) with
      | some h' => rfl
      | none =>
          rw [heldAfter] at hq
          rw [hq] at huse
          cases huse
    rw [heldAfter_append, hh] at hsome
    obtain ⟨h', hafter⟩ := Option.isSome_iff_exists.mp hsome
    exact hinv.behaves_iff hafter
  constructor
  · rintro ⟨hcalls, hend⟩
    have hinv := inv_along huse fun p c s hp hs => .inl (hcalls p c s hp hs)
    refine ⟨fun p c s hp hs => ?_, fun s hs => ?_⟩
    · obtain ⟨s', h, hs', hh, hi⟩ := hinv p ((List.prefix_append p [c]).trans hp)
      rw [hs] at hs'
      cases hs'
      exact (hstep p c s hp hs ⟨h, hh, hi⟩).mp (hcalls p c s hp hs)
    · obtain ⟨s', h, hs', hh, hi⟩ := hinv cs (List.prefix_refl cs)
      rw [hs] at hs'
      cases hs'
      exact hi.agrees.releaseAll_iff.mp (hend s hs)
  · rintro ⟨hcalls, hend⟩
    have hinv := inv_along huse fun p c s hp hs => .inr (hcalls p c s hp hs)
    refine ⟨fun p c s hp hs => ?_, fun s hs => ?_⟩
    · obtain ⟨s', h, hs', hh, hi⟩ := hinv p ((List.prefix_append p [c]).trans hp)
      rw [hs] at hs'
      cases hs'
      exact (hstep p c s hp hs ⟨h, hh, hi⟩).mpr (hcalls p c s hp hs)
    · obtain ⟨s', h, hs', hh, hi⟩ := hinv cs (List.prefix_refl cs)
      rw [hs] at hs'
      cases hs'
      exact hi.agrees.releaseAll_iff.mpr (hend s hs)

/-- An allocator that goes up from the living addresses. -/
def aboveLiving : Allocator where
  alloc _ heap := (heap.map Prod.fst).sum + 1
  fresh n heap := by
    refine List.lookup_eq_none_iff.mpr fun q hq => ?_
    have hmem : q.1 ∈ heap.map Prod.fst := List.mem_map_of_mem hq
    have hle : q.1 ≤ (heap.map Prod.fst).sum := List.le_sum_of_mem hmem
    exact bne_iff_ne.mpr (Nat.ne_of_gt (Nat.lt_succ_of_le hle))

/-- Two users of one socket, a test, one release and the release of everything. -/
def oneTest : List SocketCall :=
  [.getSocket .udp, .getSocket .udp, .startTest, .finishTest, .releaseSocket .udp,
    .releaseAllSocket]

theorem sockets_behave_oneTest : BehavesAlong aboveLiving oneTest := by
  refine (sockets_behave_iff aboveLiving oneTest rfl).mpr ⟨?_, fun s hs k hk => ?_⟩
  · rintro p c s ⟨r, hr⟩ hs
    match p with
    | [] =>
        cases hr
        cases hs
        exact ⟨fun hne => absurd rfl hne, by decide⟩
    | [_] =>
        cases hr
        cases hs
        exact ⟨fun _ => by decide, by decide⟩
    | [_, _] =>
        cases hr
        cases hs
        intro k hk
        cases hk
        exact ⟨fun _ => by decide, by decide⟩
    | [_, _, _] =>
        cases hr
        cases hs
        intro m p hm hp
        cases hm
        cases hp
        decide
    | [_, _, _, _] =>
        cases hr
        trivial
    | [_, _, _, _, _] =>
        cases hr
        cases hs
        rintro k ⟨hcount, hsocket⟩
        cases k with
        | udp => cases hcount
        | tcp => exact hsocket rfl
        | raw => exact hsocket rfl
        | btrfcomm => exact hsocket rfl
    | _ :: _ :: _ :: _ :: _ :: _ :: _ => simp [oneTest] at hr
  · cases hs
    cases k with
    | udp => cases hk.1
    | tcp => exact hk.2 rfl
    | raw => exact hk.2 rfl
    | btrfcomm => exact hk.2 rfl

/-- A socket that is obtained and released is deleted again by the destructor. -/
theorem socket_deleted_twice :
    ¬ ∀ (A : Allocator) (cs : List SocketCall), (heldAfter cs).isSome = true →
      BehavesAlong A cs := by
  intro hall
  have hbehaves := hall aboveLiving [.getSocket .udp, .releaseSocket .udp] rfl
  obtain ⟨f, hf⟩ := hbehaves.2 _ rfl
  cases hf

end Stress

import Stress.Action

/-!
# Reading from the sockets

`ReadAction` calls `Socket::read` in a loop with one and the same vector and takes the
first `n` bytes of it for the packet, where `n` is what the call returns.  This module
has the five implementations of `read` and says when they keep to that contract.

The three sockets of the boost library copy 2050 bytes out of an array of 2049, so they
never do once something can be read.  `RawSocket` takes the radiotap header off the
vector but not off the number it returns, and reads the length of the header from one
byte of two.  `BTrfcommSocket` does not clear the vector, so the first bytes of a later
packet are those of the earlier ones.
-/

namespace Stress

/-- The classes derived from `Socket`. -/
inductive SocketClass where
  | tcpSocket
  | tcpServerSocket
  | udpSocket
  | rawSocket
  | bTrfcommSocket
deriving DecidableEq, Repr

/-- What a call of `read` meets: nothing to read before the timeout or a socket that is
not open, an error of the call that receives, or a packet. -/
inductive Arrival where
  | nothing
  | error
  | packet (b : Bytes)
deriving DecidableEq, Repr

/-! ## The implementations -/

/-- The loop over `data_to_read.push_back(data[i])`, for `count` values of `i`. -/
def pushBytes (data : Bytes) (i : Nat) : Nat → Bytes → Except Fault Bytes
  | 0, data_to_read => .ok data_to_read
  | count + 1, data_to_read =>
      match data[i]? with
      | none => .error .outOfBounds
      | some c => pushBytes data (i + 1) count (data_to_read ++ [c])

/-- A local array of `size` bytes, set to zero, with what was received at its beginning. -/
def localArray (size : Nat) (received : Bytes) : Bytes :=
  received ++ List.replicate (size - received.length) 0

/-- `TcpSocket::read`, where `failed` is returned after an error. -/
def readBoost (failed : Int) (arrival : Arrival) : Except Fault ReadOutcome := do
  match arrival with
  | .nothing => return ⟨-1, []⟩
  | .error =>
      let data_to_read ← pushBytes (localArray 2049 []) 0 2050 []
      return ⟨failed, data_to_read⟩
  | .packet b =>
      let data_to_read ← pushBytes (localArray 2049 (b.take 2048)) 0 2050 []
      return ⟨(b.take 2048).length, data_to_read⟩

/-- An exception leaves `len` at `-1`. -/
def TcpSocket.read : Arrival → Except Fault ReadOutcome := readBoost (-1)

def TcpServerSocket.read : Arrival → Except Fault ReadOutcome := readBoost (-1)

/-- `receive_from` with an error code does not throw, but returns `0`. -/
def UdpSocket.read : Arrival → Except Fault ReadOutcome := readBoost 0

/-- `RawSocket::read`.  `len` is a `size_t`, so after an error it is the largest one. -/
def RawSocket.read (arrival : Arrival) : Except Fault ReadOutcome := do
  match arrival with
  | .nothing => return ⟨-1, []⟩
  | .error =>
      let data_to_read ← pushBytes (localArray 4096 []) 0 (2 ^ 64 - 1) []
      return ⟨-1, data_to_read⟩
  | .packet b =>
      let data := localArray 4096 (b.take 4096)
      let len := (b.take 4096).length
      let hdrlen := (data.getD 2 0).toNat
      let data_to_read ← pushBytes data hdrlen (len - hdrlen) []
      return ⟨len, data_to_read⟩

/-- `BTrfcommSocket::read`.  Nothing behind what was received is read from its array. -/
def BTrfcommSocket.read (arrival : Arrival) (data_to_read : Bytes) :
    Except Fault ReadOutcome := do
  match arrival with
  | .nothing | .error => return ⟨-1, data_to_read⟩
  | .packet b =>
      let data_to_read ← pushBytes (localArray 2050 (b.take 2049)) 0 (b.take 2049).length
        data_to_read
      return ⟨(b.take 2049).length, data_to_read⟩

namespace SocketClass

/-- `Socket::read`. -/
def read (arrival : Arrival) (data_to_read : Bytes) : SocketClass → Except Fault ReadOutcome
  | .tcpSocket => TcpSocket.read arrival
  | .tcpServerSocket => TcpServerSocket.read arrival
  | .udpSocket => UdpSocket.read arrival
  | .rawSocket => RawSocket.read arrival
  | .bTrfcommSocket => BTrfcommSocket.read arrival data_to_read

/-- The calls of a loop over one vector. -/
def readAll (c : SocketClass) : List Arrival → Bytes → Except Fault (List ReadOutcome)
  | [], _ => .ok []
  | arrival :: arrivals, data_to_read => do
      let o ← c.read arrival data_to_read
      let os ← c.readAll arrivals o.data
      return o :: os

/-! ## The contract -/

/-- How many bytes a call asks for. -/
def capacity : SocketClass → Nat
  | .tcpSocket | .tcpServerSocket | .udpSocket => 2048
  | .rawSocket => 4096
  | .bTrfcommSocket => 2049

/-- The bytes a call receives. -/
def received (c : SocketClass) : Arrival → Bytes
  | .nothing | .error => []
  | .packet b => b.take c.capacity

/-- The length of the radiotap header, in the third and the fourth byte. -/
def radiotapLength (b : Bytes) : Nat := (b.getD 2 0).toNat + 256 * (b.getD 3 0).toNat

/-- What a call receives behind the headers of the transport. -/
def payload (c : SocketClass) (arrival : Arrival) : Bytes :=
  match c with
  | .rawSocket => (c.received arrival).drop (radiotapLength (c.received arrival))
  | _ => c.received arrival

/-- A positive result is the length of the payload, which the vector begins with and
`ReadAction` builds its frame from. -/
structure DeliversPayload (c : SocketClass) (arrival : Arrival) (o : ReadOutcome) : Prop where
  length_le : 0 < o.n → o.n ≤ o.data.length
  take_eq : 0 < o.n → o.data.take o.n.toNat = c.payload arrival
  frame : 0 < o.n → ∀ (P : Platform) (id : Nat) (e : Env), ∃ s,
    receive P id o e = .ok (s, e) ∧ s.getStringToSend = c.payload arrival

/-- No call reads outside of its array, and each delivers the payload it received. -/
def KeepsContract (c : SocketClass) (arrivals : List Arrival) : Prop :=
  ∃ os, c.readAll arrivals [] = .ok os ∧ List.Forall₂ c.DeliversPayload arrivals os

/-- A call keeps the contract after calls that have received `before`. -/
def CallKeeps (c : SocketClass) (before : Bytes) (arrival : Arrival) : Prop :=
  match c with
  | .tcpSocket | .tcpServerSocket | .udpSocket => arrival = .nothing
  | .rawSocket => arrival ≠ .error ∧ radiotapLength (c.received arrival) = 0
  | .bTrfcommSocket => c.received arrival <+: before ++ c.received arrival

end SocketClass

/-! ## The loops -/

/-- The loop pushes the bytes in order. -/
theorem pushBytes_ok {data : Bytes} {i count : Nat} (h : i + count ≤ data.length) (v : Bytes) :
    pushBytes data i count v = .ok (v ++ (data.drop i).take count) := by
  induction count generalizing i v with
  | zero => rw [pushBytes, List.take_zero, List.append_nil]
  | succ count ih =>
      have hlt : i < data.length := by omega
      rw [pushBytes, List.getElem?_eq_getElem hlt]
      simp only
      rw [ih (by omega), List.drop_eq_getElem_cons hlt, List.take_succ_cons, List.append_assoc]
      rfl

/-- A loop that goes past the end reads outside. -/
theorem pushBytes_error {data : Bytes} {i count : Nat} (h : data.length < i + count)
    (hi : i ≤ data.length) (v : Bytes) : pushBytes data i count v = .error .outOfBounds := by
  induction count generalizing i v with
  | zero => omega
  | succ count ih =>
      rw [pushBytes]
      cases hget : data[i]? with
      | none => rfl
      | some c =>
          have hlt := (List.getElem?_eq_some_iff.mp hget).1
          exact ih (by omega) (by omega) _

theorem length_localArray {size : Nat} {received : Bytes} (h : received.length ≤ size) :
    (localArray size received).length = size := by
  rw [localArray, List.length_append, List.length_replicate]
  omega

theorem take_localArray {size k : Nat} {received : Bytes} (h : k ≤ received.length) :
    (localArray size received).take k = received.take k := by
  rw [localArray, List.take_append_of_le_length h]

theorem getD_localArray (size : Nat) (received : Bytes) (i : Nat) :
    (localArray size received).getD i 0 = received.getD i 0 := by
  rw [localArray, List.getD_eq_getElem?_getD, List.getD_eq_getElem?_getD, List.getElem?_append]
  split
  · rfl
  · next hge =>
      rw [List.getElem?_eq_none (l := received) (by omega), List.getElem?_replicate]
      split <;> rfl

/-- What stands behind the first bytes of a packet. -/
theorem pushBytes_localArray {size : Nat} {received : Bytes} (h : received.length ≤ size)
    (i : Nat) (v : Bytes) :
    pushBytes (localArray size received) i (received.length - i) v =
      .ok (v ++ received.drop i) := by
  by_cases hi : i ≤ received.length
  · have hlen := length_localArray h
    rw [pushBytes_ok (by omega), ← List.drop_take, take_localArray (Nat.le_refl _),
      List.take_length]
  · rw [Nat.sub_eq_zero_of_le (by omega), pushBytes, List.drop_of_length_le (by omega),
      List.append_nil]

namespace SocketClass

/-- The frame is what the vector begins with. -/
theorem DeliversPayload.of_take {c : SocketClass} {arrival : Arrival} {o : ReadOutcome}
    (h : 0 < o.n → o.n ≤ o.data.length ∧ o.data.take o.n.toNat = c.payload arrival) :
    c.DeliversPayload arrival o where
  length_le hn := (h hn).1
  take_eq hn := (h hn).2
  frame hn P id e := by
    obtain ⟨hle, htake⟩ := h hn
    refine ⟨_, by rw [receive, if_pos hn, if_pos hle]; rfl, ?_⟩
    rw [State.getStringToSend_eq, ← htake]
    rfl

/-! ## One call -/

/-- The array of the boost sockets is one byte too short. -/
theorem readBoost_error (failed : Int) {arrival : Arrival} (h : arrival ≠ .nothing) :
    readBoost failed arrival = .error .outOfBounds := by
  have hpush : ∀ b : Bytes, b.length ≤ 2048 →
      pushBytes (localArray 2049 b) 0 2050 [] = .error .outOfBounds := by
    intro b hb
    have hlen : (localArray 2049 b).length = 2049 := length_localArray (by omega)
    exact pushBytes_error (by omega) (Nat.zero_le _) []
  cases arrival with
  | nothing => exact absurd rfl h
  | error =>
      rw [readBoost, hpush [] (by decide)]
      rfl
  | packet b =>
      rw [readBoost, hpush _ (List.length_take_le _ _)]
      rfl

theorem read_boost_iff {failed : Int} (c : SocketClass) (arrival : Arrival) :
    (∃ o, readBoost failed arrival = .ok o ∧ c.DeliversPayload arrival o) ↔ arrival = .nothing := by
  constructor
  · rintro ⟨o, ho, _⟩
    by_contra hne
    rw [readBoost_error failed hne] at ho
    cases ho
  · rintro rfl
    exact ⟨⟨-1, []⟩, rfl, .of_take fun hn => absurd hn (by decide)⟩

/-- A packet is pushed behind the earlier ones. -/
theorem read_bTrfcomm_packet (b v : Bytes) : BTrfcommSocket.read (.packet b) v =
    .ok ⟨(b.take 2049).length, v ++ b.take 2049⟩ := by
  have hcap : (b.take 2049).length ≤ 2050 :=
    Nat.le_trans (List.length_take_le _ _) (by decide)
  have hpush := pushBytes_localArray hcap 0 v
  rw [Nat.sub_zero, List.drop_zero] at hpush
  rw [BTrfcommSocket.read, hpush]
  rfl

/-- The vector has the number of bytes that is returned if and only if there is no
header. -/
theorem read_raw_iff (arrival : Arrival) :
    (∃ o, RawSocket.read arrival = .ok o ∧ SocketClass.rawSocket.DeliversPayload arrival o) ↔
      arrival ≠ .error ∧ radiotapLength (SocketClass.rawSocket.received arrival) = 0 := by
  cases arrival with
  | nothing =>
      refine ⟨fun _ => ⟨nofun, rfl⟩, fun _ => ⟨⟨-1, []⟩, rfl, .of_take fun hn => ?_⟩⟩
      exact absurd hn (by decide)
  | error =>
      refine ⟨?_, fun h => absurd rfl h.1⟩
      rintro ⟨o, ho, _⟩
      have hlen : (localArray 4096 []).length = 4096 := length_localArray (Nat.zero_le _)
      rw [RawSocket.read, pushBytes_error (by omega) (Nat.zero_le _)] at ho
      cases ho
  | packet b =>
      obtain ⟨r, hr⟩ : ∃ r, r = b.take 4096 := ⟨_, rfl⟩
      have hcap : r.length ≤ 4096 := hr ▸ List.length_take_le _ _
      have hread : RawSocket.read (.packet b) = .ok ⟨r.length, r.drop (r.getD 2 0).toNat⟩ := by
        rw [RawSocket.read]
        simp only [← hr]
        rw [pushBytes_localArray hcap, getD_localArray]
        rfl
      have hreceived : SocketClass.rawSocket.received (.packet b) = r := hr.symm
      have hpayload : SocketClass.rawSocket.payload (.packet b) = r.drop (radiotapLength r) := by
        rw [payload, hreceived]
      rw [hread, hreceived, and_iff_right nofun]
      constructor
      · rintro ⟨o, ho, hdelivers⟩
        cases ho
        rcases Nat.eq_zero_or_pos r.length with hzero | hpos
        · rw [List.length_eq_zero_iff.mp hzero]
          rfl
        · have hle := hdelivers.length_le (Int.natCast_pos.mpr hpos)
          have htake := congrArg List.length (hdelivers.take_eq (Int.natCast_pos.mpr hpos))
          rw [hpayload] at htake
          simp only [List.length_drop, Int.toNat_natCast, List.length_take] at hle htake
          omega
      · intro hheader
        refine ⟨_, rfl, .of_take fun _ => ?_⟩
        have hzero : (r.getD 2 0).toNat = 0 := by
          rw [radiotapLength] at hheader
          omega
        rw [hpayload, hheader, hzero]
        exact ⟨Int.le_refl _, List.take_length⟩

/-- The vector begins with the packet if and only if all that was read up to it does. -/
theorem read_bTrfcomm_iff (arrival : Arrival) (v : Bytes) :
    (∃ o, BTrfcommSocket.read arrival v = .ok o ∧
        SocketClass.bTrfcommSocket.DeliversPayload arrival o) ↔
      SocketClass.bTrfcommSocket.received arrival <+:
        v ++ SocketClass.bTrfcommSocket.received arrival := by
  cases arrival with
  | nothing =>
      refine ⟨fun _ => List.nil_prefix, fun _ => ⟨⟨-1, v⟩, rfl, .of_take fun hn => ?_⟩⟩
      exact absurd (a := (0 : Int) < -1) hn (by decide)
  | error =>
      refine ⟨fun _ => List.nil_prefix, fun _ => ⟨⟨-1, v⟩, rfl, .of_take fun hn => ?_⟩⟩
      exact absurd (a := (0 : Int) < -1) hn (by decide)
  | packet b =>
      obtain ⟨r, hr⟩ : ∃ r, r = b.take 2049 := ⟨_, rfl⟩
      have hread : BTrfcommSocket.read (.packet b) v = .ok ⟨r.length, v ++ r⟩ :=
        hr ▸ read_bTrfcomm_packet b v
      have hreceived : SocketClass.bTrfcommSocket.received (.packet b) = r := hr.symm
      have hpayload : SocketClass.bTrfcommSocket.payload (.packet b) = r := hr.symm
      rw [hread, hreceived, List.prefix_iff_eq_take]
      constructor
      · rintro ⟨o, ho, hdelivers⟩
        cases ho
        rcases Nat.eq_zero_or_pos r.length with hzero | hpos
        · rw [hzero, List.take_zero]
          exact List.length_eq_zero_iff.mp hzero
        · have htake := hdelivers.take_eq (Int.natCast_pos.mpr hpos)
          rw [hpayload] at htake
          exact htake.symm
      · intro htake
        refine ⟨_, rfl, .of_take fun _ => ⟨?_, ?_⟩⟩
        · simp only [List.length_append]
          omega
        · rw [hpayload]
          exact htake.symm

/-- One call.  Only the Bluetooth socket looks at the vector. -/
theorem read_keeps_iff (c : SocketClass) (arrival : Arrival) {v before : Bytes}
    (hv : c = .bTrfcommSocket → v = before) :
    (∃ o, c.read arrival v = .ok o ∧ c.DeliversPayload arrival o) ↔
      c.CallKeeps before arrival := by
  cases c with
  | tcpSocket => exact read_boost_iff _ arrival
  | tcpServerSocket => exact read_boost_iff _ arrival
  | udpSocket => exact read_boost_iff _ arrival
  | rawSocket => exact read_raw_iff arrival
  | bTrfcommSocket => exact hv rfl ▸ read_bTrfcomm_iff arrival v

/-- What the vector of the Bluetooth socket holds after a call. -/
theorem data_read_bTrfcomm {arrival : Arrival} {v : Bytes} {o : ReadOutcome}
    (h : SocketClass.bTrfcommSocket.read arrival v = .ok o) :
    o.data = v ++ SocketClass.bTrfcommSocket.received arrival := by
  cases arrival with
  | nothing =>
      cases h
      exact (List.append_nil v).symm
  | error =>
      cases h
      exact (List.append_nil v).symm
  | packet b =>
      rw [read, read_bTrfcomm_packet] at h
      cases h
      rfl

/-! ## Sequences of calls -/

/-- A call of a sequence is the first one or one of the others. -/
theorem forall_cons_append_iff {a : Arrival} {arrivals : List Arrival}
    {Q : List Arrival → Arrival → Prop} :
    (∀ pre arrival post, a :: arrivals = pre ++ arrival :: post → Q pre arrival) ↔
      Q [] a ∧ ∀ pre arrival post, arrivals = pre ++ arrival :: post → Q (a :: pre) arrival := by
  constructor
  · intro h
    exact ⟨h [] a arrivals rfl, fun pre arrival post heq => h (a :: pre) arrival post (heq ▸ rfl)⟩
  · rintro ⟨hfirst, hrest⟩ pre arrival post heq
    cases pre with
    | nil =>
        cases heq
        exact hfirst
    | cons b pre =>
        obtain ⟨rfl, htail⟩ := List.cons_eq_cons.mp heq
        exact hrest pre arrival post htail

theorem readAll_cons_ok {c : SocketClass} {a : Arrival} {arrivals : List Arrival} {v : Bytes}
    {os : List ReadOutcome} : c.readAll (a :: arrivals) v = .ok os ↔
      ∃ o os', c.read a v = .ok o ∧ c.readAll arrivals o.data = .ok os' ∧ os = o :: os' := by
  rw [readAll]
  cases ho : c.read a v with
  | error x =>
      constructor
      · intro h
        cases h
      · rintro ⟨o, os', h, _⟩
        cases h
  | ok o =>
      change (c.readAll arrivals o.data >>= fun os' => pure (o :: os')) = _ ↔ _
      cases hos : c.readAll arrivals o.data with
      | error x =>
          constructor
          · intro h
            cases h
          · rintro ⟨o', os', ho', hos', _⟩
            cases ho'
            rw [hos] at hos'
            cases hos'
      | ok os' =>
          constructor
          · intro h
            cases h
            exact ⟨o, os', rfl, hos, rfl⟩
          · rintro ⟨o', os'', ho', hos', rfl⟩
            cases ho'
            rw [hos] at hos'
            cases hos'
            rfl

/-- By induction on the calls, for a vector that holds what was received before. -/
theorem readAll_keeps_iff (c : SocketClass) (arrivals : List Arrival) {v before : Bytes}
    (hv : c = .bTrfcommSocket → v = before) :
    (∃ os, c.readAll arrivals v = .ok os ∧ List.Forall₂ c.DeliversPayload arrivals os) ↔
      ∀ pre arrival post, arrivals = pre ++ arrival :: post →
        c.CallKeeps (before ++ pre.flatMap c.received) arrival := by
  induction arrivals generalizing v before with
  | nil =>
      refine ⟨fun _ pre arrival post h => ?_, fun _ => ⟨[], rfl, .nil⟩⟩
      exact absurd (congrArg List.length h) (by simp)
  | cons a arrivals ih =>
      have hafter : ∀ o, c.read a v = .ok o → c = .bTrfcommSocket →
          o.data = before ++ c.received a := by
        rintro o ho rfl
        rw [data_read_bTrfcomm ho, hv rfl]
      rw [forall_cons_append_iff]
      simp only [List.flatMap_nil, List.append_nil, List.flatMap_cons, ← List.append_assoc]
      constructor
      · rintro ⟨os, hos, hall⟩
        obtain ⟨o, os', ho, hos', rfl⟩ := readAll_cons_ok.mp hos
        cases hall with
        | cons hdelivers hrest =>
            exact ⟨(read_keeps_iff c a hv).mp ⟨o, ho, hdelivers⟩,
              (ih (hafter o ho)).mp ⟨os', hos', hrest⟩⟩
      · rintro ⟨hcall, hcalls⟩
        obtain ⟨o, ho, hdelivers⟩ := (read_keeps_iff c a hv).mpr hcall
        obtain ⟨os, hos, hall⟩ := (ih (hafter o ho)).mpr hcalls
        exact ⟨o :: os, readAll_cons_ok.mpr ⟨o, os, ho, hos, rfl⟩, .cons hdelivers hall⟩

/-- The sequences of calls that keep the contract. -/
theorem read_contract_iff (c : SocketClass) (arrivals : List Arrival) :
    c.KeepsContract arrivals ↔ ∀ pre arrival post, arrivals = pre ++ arrival :: post →
      c.CallKeeps (pre.flatMap c.received) arrival :=
  readAll_keeps_iff c arrivals fun _ => rfl

/-- The second packet is read as the first one. -/
theorem second_packet_is_the_first : ¬ ∀ (c : SocketClass) (arrivals : List Arrival),
    c.KeepsContract arrivals := by
  intro hall
  have hcalls := (readAll_keeps_iff .bTrfcommSocket [.packet [97], .packet [98]] fun _ => rfl).mp
    (hall .bTrfcommSocket [.packet [97], .packet [98]])
  have hsecond : [(98 : UInt8)] <+: [97, 98] := hcalls [.packet [97]] (.packet [98]) [] rfl
  exact absurd hsecond (by decide)

end SocketClass

end Stress

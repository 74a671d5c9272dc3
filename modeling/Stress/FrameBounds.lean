import Stress.Propagation
import Stress.ValueCheck

/-!
# Positions in the last frame

`Variable` and `ValueCheck` take offsets and lengths from the grammar and do not compare
them with the number of bytes in the last frame, as `MaskCheck` does.  This module lists
the positions they read.

`State::setRawValue` reads four bytes for the integer view however many it is asked for,
and `ValueCheck` prints the first bytes of both texts before it looks at the result.
Without a packet the frame of a read has no bytes, and outside of a read there is no frame
(`Visits.framed`).

The positions are those of the source, and more than the model of the commands looks at.
`Command.returns_of_inside` and `Command.inside_or_behind` say how the two agree.
-/

namespace Stress

/-! ## The positions -/

/-- What a command reads: a byte of the last frame or of the expected value, a frame that
is not there, or something at a place that no argument determines. -/
inductive FrameAccess where
  | frame (i : Int)
  | expected (i : Int)
  | absent
  | undetermined
deriving DecidableEq, Repr

/-- `count` positions from `start` on. -/
def positions (start count : Int) : List Int :=
  (List.range count.toNat).map fun k : Nat => start + (k : Int)

/-- `setRawValue` with a buffer at `start`.  Below `-1` the allocation throws. -/
def setRawValueReads (start i : Int) : List Int :=
  if i < -1 then [] else positions start (max i 4)

/-- `result[k]->getIntegerValue()`, where it has a value. -/
def integerAt (result : List State) (k : Nat) : Option Int :=
  result[k]?.bind fun s => s.getIntegerValue.toOption

/-- `VariableCommand::runAction` after its sons. -/
def variableAccesses (e : Env) (result : List State) : List FrameAccess :=
  match result[1]? with
  | none => [.undetermined]
  | some name =>
      if (e.vars.lookup name.getStringValue).isSome then []
      else
        match e.lastFrame, integerAt result 2, integerAt result 3 with
        | none, _, _ => [.absent]
        | some _, some start, some lenght => (setRawValueReads start lenght).map .frame
        | _, _, _ => [.undetermined]

/-- The bytes that are attached after a difference. -/
def receivedReads (lastframe expected : Bytes) (start size : Int) : List Int :=
  match wrmemcmp lastframe expected start size.toNat with
  | .ok disequal => if disequal = 0 then [] else setRawValueReads start size
  | .error _ => []

/-- `ValueCheckCommand::runAction` after its sons: the comparison, the two loops that
print, and the bytes that are attached after a difference. -/
def valueCheckAccesses (e : Env) (result : List State) : List FrameAccess :=
  match e.lastFrame, result[1]?, result[2]?, result[3]? with
  | none, _, _, _ => [.absent]
  | some lastframe, some a, some b, some c =>
      let start := atoi a.getStringToSend
      let size := atoi b.getStringToSend
      let received := receivedReads lastframe.getStringToSend c.getStringToSend start size
      (positions start size).map .frame ++ (positions 0 size).map .expected ++
        (positions 0 size).map .frame ++ (positions 0 size).map .expected ++ received.map .frame
  | _, _, _, _ => [.undetermined]

def Command.frameAccesses (e : Env) (result : List State) : Command → List FrameAccess
  | .variableCommand => variableAccesses e result
  | .valueCheckCommand => valueCheckAccesses e result
  | _ => []

/-- An access to a byte that is there. -/
def FrameAccess.Inside (e : Env) (result : List State) : FrameAccess → Prop
  | .frame i => ∃ f, e.lastFrame = some f ∧ 0 ≤ i ∧ i < f.data.raw.length
  | .expected i => ∃ s, result[3]? = some s ∧ 0 ≤ i ∧ i < s.getStringToSend.length
  | .absent => False
  | .undetermined => False

theorem mem_positions {start count i : Int} :
    i ∈ positions start count ↔ start ≤ i ∧ i < start + count := by
  rw [positions, List.mem_map]
  constructor
  · rintro ⟨k, hk, rfl⟩
    have hlt := List.mem_range.mp hk
    omega
  · rintro ⟨hle, hlt⟩
    refine ⟨(i - start).toNat, List.mem_range.mpr ?_, ?_⟩ <;> omega

/-- All of a number of positions are inside if and only if the first and the last are. -/
theorem forall_positions_iff {start count n : Int} :
    (∀ i ∈ positions start count, 0 ≤ i ∧ i < n) ↔
      0 < count → 0 ≤ start ∧ start + count ≤ n := by
  simp only [mem_positions]
  constructor
  · intro h hpos
    have hfirst := h start (by omega)
    have hlast := h (start + count - 1) (by omega)
    omega
  · intro h i hi
    have hbounds := h (by omega)
    omega

theorem forall_setRawValueReads_iff {start i n : Int} :
    (∀ j ∈ setRawValueReads start i, 0 ≤ j ∧ j < n) ↔
      i < -1 ∨ 0 ≤ start ∧ start + max i 4 ≤ n := by
  rw [setRawValueReads]
  split
  · next h => exact ⟨fun _ => .inl h, fun _ _ hj => by cases hj⟩
  · next h =>
      rw [forall_positions_iff]
      constructor
      · intro h
        exact .inr (h (by omega))
      · rintro (hlow | hbounds)
        · exact absurd hlow h
        · exact fun _ => hbounds

/-! ## The condition -/

/-- The variable is bound already, or the last frame has all bytes from the offset on that
are copied, and four at least. -/
def VariableBounds (e : Env) (result : List State) : Prop :=
  ∃ name, result[1]? = some name ∧ ((e.vars.lookup name.getStringValue).isSome = true ∨
    ∃ f start lenght, e.lastFrame = some f ∧ integerAt result 2 = some start ∧
      integerAt result 3 = some lenght ∧
      (lenght < -1 ∨ 0 ≤ start ∧ start + max lenght 4 ≤ f.data.raw.length))

/-- The last frame and the expected value have all bytes that are compared, and after a
difference there are four at least. -/
def ValueCheckBounds (e : Env) (result : List State) : Prop :=
  ∃ f a b c, e.lastFrame = some f ∧ result[1]? = some a ∧ result[2]? = some b ∧
    result[3]? = some c ∧ ∀ start size, atoi a.getStringToSend = start →
      atoi b.getStringToSend = size → 0 < size →
        0 ≤ start ∧ start + size ≤ f.data.raw.length ∧ size ≤ c.getStringToSend.length ∧
        (wrmemcmp f.data.raw c.getStringToSend start size.toNat = .ok 0 ∨
          start + 4 ≤ f.data.raw.length)

def Command.FrameBounds (e : Env) (result : List State) : Command → Prop
  | .variableCommand => VariableBounds e result
  | .valueCheckCommand => ValueCheckBounds e result
  | _ => True

theorem forall_frame_inside_iff {e : Env} {result : List State} {f : State}
    (hf : e.lastFrame = some f) (is : List Int) :
    (∀ a ∈ is.map FrameAccess.frame, a.Inside e result) ↔
      ∀ i ∈ is, 0 ≤ i ∧ i < (f.data.raw.length : Int) := by
  rw [List.forall_mem_map]
  refine forall_congr' fun i => imp_congr_right fun _ => ?_
  rw [FrameAccess.Inside, hf]
  simp

theorem forall_expected_inside_iff {e : Env} {result : List State} {c : State}
    (hc : result[3]? = some c) (is : List Int) :
    (∀ a ∈ is.map FrameAccess.expected, a.Inside e result) ↔
      ∀ i ∈ is, 0 ≤ i ∧ i < (c.getStringToSend.length : Int) := by
  rw [List.forall_mem_map]
  refine forall_congr' fun i => imp_congr_right fun _ => ?_
  rw [FrameAccess.Inside, hc]
  simp

theorem forall_bad_inside_iff {e : Env} {result : List State} {a : FrameAccess}
    (ha : ¬ a.Inside e result) {p : Prop} (hp : ¬ p) : (∀ b ∈ [a], b.Inside e result) ↔ p :=
  iff_of_false (fun hall => ha (hall a (List.mem_singleton_self a))) hp

theorem variable_inside_iff (e : Env) (result : List State) :
    (∀ a ∈ variableAccesses e result, a.Inside e result) ↔ VariableBounds e result := by
  rw [variableAccesses, VariableBounds]
  cases h₁ : result[1]? with
  | none => exact forall_bad_inside_iff id nofun
  | some name =>
      simp only [Option.some.injEq, exists_eq_left']
      split
      · next hbound => exact iff_of_true nofun (.inl hbound)
      · next hbound =>
          rw [or_iff_right hbound]
          cases hf : e.lastFrame with
          | none => exact forall_bad_inside_iff id nofun
          | some f =>
              cases h₂ : integerAt result 2 with
              | none => exact forall_bad_inside_iff id nofun
              | some start =>
                  cases h₃ : integerAt result 3 with
                  | none => exact forall_bad_inside_iff id nofun
                  | some lenght =>
                      simp only [Option.some.injEq, exists_eq_left', exists_and_left]
                      rw [forall_frame_inside_iff hf, forall_setRawValueReads_iff]

/-- The frame sends its raw bytes. -/
def FrameIsRaw (e : Env) : Prop := ∀ f, e.lastFrame = some f → f.getStringToSend = f.data.raw

theorem forall_receivedReads_iff {frame expected : Bytes} {start size : Int}
    (h : 0 < size → 0 ≤ start ∧ start + size ≤ frame.length ∧ size ≤ expected.length) :
    (∀ i ∈ receivedReads frame expected start size, 0 ≤ i ∧ i < (frame.length : Int)) ↔
      (0 < size → wrmemcmp frame expected start size.toNat = .ok 0 ∨
        start + 4 ≤ frame.length) := by
  rw [receivedReads]
  by_cases hsize : 0 < size
  · obtain ⟨hstart, hframe, hexpected⟩ := h hsize
    have hnat : ((size.toNat : Nat) : Int) = size := Int.toNat_of_nonneg hsize.le
    rw [wrmemcmp_eq hstart (by rw [hnat]; exact hframe) (by omega)]
    simp only [Except.ok.injEq]
    split
    · next hzero => exact iff_of_true nofun fun _ => .inl hzero
    · next hne =>
        rw [forall_setRawValueReads_iff]
        omega
  · rw [Int.toNat_of_nonpos (by omega), wrmemcmp]
    simp only [if_pos]
    exact iff_of_true nofun fun hpos => absurd hpos hsize

theorem valueCheck_inside_iff {e : Env} (he : FrameIsRaw e) (result : List State) :
    (∀ a ∈ valueCheckAccesses e result, a.Inside e result) ↔ ValueCheckBounds e result := by
  rw [valueCheckAccesses, ValueCheckBounds]
  cases hf : e.lastFrame with
  | none => exact forall_bad_inside_iff id nofun
  | some f =>
      cases h₁ : result[1]? with
      | none => exact forall_bad_inside_iff id nofun
      | some a =>
          cases h₂ : result[2]? with
          | none => exact forall_bad_inside_iff id nofun
          | some b =>
              cases h₃ : result[3]? with
              | none => exact forall_bad_inside_iff id nofun
              | some c =>
                  simp only [Option.some.injEq, exists_and_left, exists_eq_left',
                    List.forall_mem_append, forall_frame_inside_iff hf,
                    forall_expected_inside_iff h₃, forall_positions_iff, he f hf]
                  generalize atoi a.getStringToSend = start
                  generalize atoi b.getStringToSend = size
                  constructor
                  · rintro ⟨⟨⟨⟨hframe, hexpected⟩, _⟩, _⟩, hreceived⟩ _ _ rfl rfl hsize
                    have hlen : start + size ≤ f.data.raw.length := (hframe hsize).2
                    have hlen' : size ≤ c.getStringToSend.length := by
                      have := (hexpected hsize).2
                      omega
                    refine ⟨(hframe hsize).1, hlen, hlen', ?_⟩
                    refine (forall_receivedReads_iff ?_).mp hreceived hsize
                    exact fun _ => ⟨(hframe hsize).1, hlen, hlen'⟩
                  · intro h
                    have hbounds := h start size rfl rfl
                    refine ⟨⟨⟨⟨?_, ?_⟩, ?_⟩, ?_⟩, ?_⟩
                    · exact fun hsize => ⟨(hbounds hsize).1, (hbounds hsize).2.1⟩
                    · intro hsize
                      have := hbounds hsize
                      omega
                    · intro hsize
                      have := hbounds hsize
                      omega
                    · intro hsize
                      have := hbounds hsize
                      omega
                    · rw [forall_receivedReads_iff]
                      · exact fun hsize => (hbounds hsize).2.2.2
                      · exact fun hsize =>
                          ⟨(hbounds hsize).1, (hbounds hsize).2.1, (hbounds hsize).2.2.1⟩

theorem Command.inside_iff {e : Env} (he : FrameIsRaw e) (result : List State) (c : Command) :
    (∀ a ∈ c.frameAccesses e result, a.Inside e result) ↔ c.FrameBounds e result := by
  cases c with
  | variableCommand => exact variable_inside_iff e result
  | valueCheckCommand => exact valueCheck_inside_iff he result
  | _ => exact iff_of_true nofun trivial

/-! ## The positions and the faults -/

/-- An access behind the last byte, which does not stop the model: `setRawValue` finds zeros
there, a text ends with one, and what is printed leaves nothing behind. -/
def FrameAccess.Behind (e : Env) (result : List State) : FrameAccess → Prop
  | .frame i => ∃ f, e.lastFrame = some f ∧ (f.data.raw.length : Int) ≤ i
  | .expected i => ∃ s, result[3]? = some s ∧ (s.getStringToSend.length : Int) ≤ i
  | .absent => False
  | .undetermined => False

theorem integerArgument_of_integerAt {result : List State} {k : Nat} {i : Int} {e : Env}
    (h : integerAt result k = some i) : integerArgument result k e = .ok (i, e) := by
  obtain ⟨t, ht, hi⟩ := Option.bind_eq_some_iff.mp h
  have hvalue : t.getIntegerValue = .ok i := by
    cases hv : t.getIntegerValue with
    | error x =>
        rw [hv] at hi
        cases hi
    | ok j =>
        rw [hv] at hi
        cases hi
        rfl
  rw [integerArgument, Comp.bind_eq, argument, ht]
  simp only [Comp.pure_eq, hvalue]
  rfl

section Faults

variable {P : Platform} {id : Nat} {name : Bytes} {result : List State} {e e' : Env} {s : State}

theorem frames_inside_or_behind {f : State} (hf : e.lastFrame = some f) {is : List Int}
    (h : ∀ i ∈ is, 0 ≤ i) :
    ∀ a ∈ is.map FrameAccess.frame, a.Inside e result ∨ a.Behind e result := by
  rw [List.forall_mem_map]
  intro i hi
  obtain hlt | hle := lt_or_ge i (f.data.raw.length : Int)
  · exact .inl ⟨f, hf, h i hi, hlt⟩
  · exact .inr ⟨f, hf, hle⟩

theorem expected_inside_or_behind {c : State} (hc : result[3]? = some c) {is : List Int}
    (h : ∀ i ∈ is, 0 ≤ i) :
    ∀ a ∈ is.map FrameAccess.expected, a.Inside e result ∨ a.Behind e result := by
  rw [List.forall_mem_map]
  intro i hi
  obtain hlt | hle := lt_or_ge i (c.getStringToSend.length : Int)
  · exact .inl ⟨c, hc, h i hi, hlt⟩
  · exact .inr ⟨c, hc, hle⟩

theorem setRawValueReads_nonneg {start i : Int} (h : 0 ≤ start) :
    ∀ j ∈ setRawValueReads start i, 0 ≤ j := by
  intro j hj
  rw [setRawValueReads] at hj
  split at hj
  · cases hj
  · exact h.trans (mem_positions.mp hj).1

/-- A comparison that comes to an end has not begun in front of the text. -/
theorem wrmemcmp_start {first second : Bytes} {start disequal : Int} {n : Nat}
    (h : wrmemcmp first second start n = .ok disequal) (hn : 0 < n) : 0 ≤ start := by
  induction n generalizing disequal with
  | zero => exact absurd hn (Nat.lt_irrefl 0)
  | succ n ih =>
      rw [wrmemcmp] at h
      cases hrest : wrmemcmp first second start n with
      | error x =>
          rw [hrest] at h
          cases h
      | ok d =>
          cases n with
          | succ n => exact ih hrest (Nat.succ_pos n)
          | zero =>
              rw [hrest] at h
              by_cases hstart : 0 ≤ start
              · exact hstart
              · have hfault : charAt first (start + (0 : Nat)) = .error .outOfBounds :=
                  if_neg fun hin => hstart (by simpa using hin.1)
                rw [hfault] at h
                cases h

theorem variable_inside_or_behind (h : runVariable P id result e = .ok (s, e')) :
    ∀ a ∈ variableAccesses e result, a.Inside e result ∨ a.Behind e result := by
  rw [variableAccesses]
  obtain ⟨var, v, ⟨t, ht, rfl⟩, hlive, _⟩ | ⟨var, data, start, lenght, hcap, _⟩ := runVariable_ok h
  · simp only [ht, hlive, Option.isSome_some, if_true]
    exact nofun
  · obtain ⟨t, ht, rfl⟩ := hcap.name
    obtain ⟨f, hf, _⟩ := hcap.frame
    obtain ⟨t₂, h₂, hstart⟩ := hcap.offset
    obtain ⟨t₃, h₃, hlenght⟩ := hcap.size
    have hstart : integerAt result 2 = some (start : Int) := by
      rw [integerAt, h₂, Option.bind_some, hstart]
      rfl
    have hlenght : integerAt result 3 = some (lenght : Int) := by
      rw [integerAt, h₃, Option.bind_some, hlenght]
      rfl
    simp only [ht, hcap.unbound, Option.isSome_none, Bool.false_eq_true, if_false, hf, hstart,
      hlenght]
    exact frames_inside_or_behind hf (setRawValueReads_nonneg (Int.natCast_nonneg start))

theorem valueCheck_inside_or_behind (h : runValueCheck P id name result e = .ok (s, e')) :
    ∀ a ∈ valueCheckAccesses e result, a.Inside e result ∨ a.Behind e result := by
  obtain ⟨f, hf, h⟩ := getLastFrame_bind_ok.mp h
  obtain ⟨a, h₁, h⟩ := wireArgument_bind_ok.mp h
  obtain ⟨b, h₂, h⟩ := wireArgument_bind_ok.mp h
  obtain ⟨c, h₃, h⟩ := wireArgument_bind_ok.mp h
  obtain ⟨disequal, hcompare, _⟩ := ofExcept_bind_ok.mp h
  simp only [valueCheckAccesses, hf, h₁, h₂, h₃]
  generalize atoi a.getStringToSend = start at hcompare
  generalize atoi b.getStringToSend = size at hcompare
  have hstart : 0 < size → 0 ≤ start := fun hsize => wrmemcmp_start hcompare (by omega)
  have hcompared : ∀ i ∈ positions start size, 0 ≤ i := by
    intro i hi
    obtain ⟨hle, hlt⟩ := mem_positions.mp hi
    exact (hstart (by omega)).trans hle
  have hprinted : ∀ i ∈ positions 0 size, 0 ≤ i := fun i hi => (mem_positions.mp hi).1
  have hreceived : ∀ i ∈ receivedReads f.getStringToSend c.getStringToSend start size, 0 ≤ i := by
    rw [receivedReads, hcompare]
    simp only
    split
    · exact List.forall_mem_nil _
    · next hne =>
        refine setRawValueReads_nonneg (hstart ?_)
        by_contra hsize
        rw [Int.toNat_of_nonpos (not_lt.mp hsize), wrmemcmp] at hcompare
        cases hcompare
        exact hne rfl
  simp only [List.forall_mem_append]
  exact ⟨⟨⟨⟨frames_inside_or_behind hf hcompared, expected_inside_or_behind h₃ hprinted⟩,
    frames_inside_or_behind hf hprinted⟩, expected_inside_or_behind h₃ hprinted⟩,
    frames_inside_or_behind hf hreceived⟩

/-- A command that returns has used no frame or argument that is not there, and nothing in
front of the frame. -/
theorem Command.inside_or_behind {c : Command} (h : c.finish P id name result e = .ok (s, e')) :
    ∀ a ∈ c.frameAccesses e result, a.Inside e result ∨ a.Behind e result := by
  cases c with
  | variableCommand => exact variable_inside_or_behind h
  | valueCheckCommand => exact valueCheck_inside_or_behind h
  | _ => exact nofun

/-- A `Variable` that finds its bounds returns, unless the state of its variable is gone.  A
negative length is out of bounds in the model, where the allocation throws or nothing is
copied. -/
theorem runVariable_of_bounds (h : VariableBounds e result)
    (hlenght : ∀ lenght, integerAt result 3 = some lenght → 0 ≤ lenght) :
    (∃ s e', runVariable P id result e = .ok (s, e')) ∨
      runVariable P id result e = .error .danglingState := by
  obtain ⟨t, ht, hbounds⟩ := h
  have hvar : argument result 1 e = .ok (t, e) := by
    rw [argument, ht]
    rfl
  cases hlookup : e.vars.lookup t.getStringValue with
  | some v =>
      have hcheck : checkVariable t.getStringValue e = .ok (true, e) := by
        rw [checkVariable, hlookup]
        rfl
      simp only [runVariable, Comp.bind_eq, hvar, hcheck, if_true]
      cases v with
      | live v =>
          refine .inl ?_
          simp only [getVariable, hlookup]
          exact ⟨_, _, rfl⟩
      | dangling =>
          refine .inr ?_
          simp only [getVariable, hlookup]
  | none =>
      have hcheck : checkVariable t.getStringValue e = .ok (false, e) := by
        rw [checkVariable, hlookup]
        rfl
      rw [hlookup] at hbounds
      obtain hbound | ⟨f, start, lenght, hf, hstart, hlen, hfits⟩ := hbounds
      · cases hbound
      · have hpos := hlenght lenght hlen
        obtain hlow | ⟨hle, hend⟩ := hfits
        · omega
        · have hraw : ∃ data, f.data.rawValue = some data := by
            cases hraw : f.data.rawValue with
            | some data => exact ⟨data, rfl⟩
            | none =>
                rw [StateData.raw, hraw, Option.getD_none, List.length_nil] at hend
                omega
          obtain ⟨data, hraw⟩ := hraw
          have hfits : 0 ≤ start ∧ 0 ≤ lenght ∧ start + lenght ≤ data.length := by
            rw [StateData.raw, hraw, Option.getD_some] at hend
            omega
          have hlast : getLastFrame e = .ok (f, e) := by rw [getLastFrame, hf]
          have harg₂ := integerArgument_of_integerAt (e := e) hstart
          have harg₃ := integerArgument_of_integerAt (e := e) hlen
          have hset : ∀ s : State, ∃ s' e', setVariable t.getStringValue s e = .ok (s', e') := by
            intro s
            rw [setVariable, hlookup]
            exact ⟨_, _, rfl⟩
          simp only [runVariable, Comp.bind_eq, hvar, hcheck, Bool.false_eq_true, if_false, hlast,
            harg₂, harg₃, hraw, if_pos hfits]
          obtain ⟨s', e', hset⟩ := hset ((State.valueHexState id).update
            (StateData.setRawValue P.uninit (data.drop start.toNat) lenght.toNat))
          rw [hset]
          exact .inl ⟨_, _, rfl⟩

/-- A `ValueCheck` that finds its bounds returns. -/
theorem runValueCheck_of_bounds (he : FrameIsRaw e) (h : ValueCheckBounds e result) :
    ∃ s e', runValueCheck P id name result e = .ok (s, e') := by
  obtain ⟨f, a, b, c, hf, h₁, h₂, h₃, hbounds⟩ := h
  have hcompare : ∃ disequal, wrmemcmp f.getStringToSend c.getStringToSend
      (atoi a.getStringToSend) (atoi b.getStringToSend).toNat = .ok disequal := by
    by_cases hsize : 0 < atoi b.getStringToSend
    · obtain ⟨hstart, hframe, hexpected, _⟩ := hbounds _ _ rfl rfl hsize
      rw [he f hf]
      exact ⟨_, wrmemcmp_eq hstart (by omega) (by omega)⟩
    · rw [Int.toNat_of_nonpos (not_lt.mp hsize)]
      exact ⟨0, rfl⟩
  obtain ⟨disequal, hcompare⟩ := hcompare
  have hlast : getLastFrame e = .ok (f, e) := by rw [getLastFrame, hf]
  have hcompared : ofExcept (wrmemcmp f.getStringToSend c.getStringToSend
      (atoi a.getStringToSend) (atoi b.getStringToSend).toNat) e = .ok (disequal, e) := by
    rw [hcompare]
    rfl
  simp only [runValueCheck, Comp.bind_eq, hlast, wireArgument_eq h₁, wireArgument_eq h₂,
    wireArgument_eq h₃, hcompared]
  split
  · exact ⟨_, _, rfl⟩
  · exact ⟨_, _, rfl⟩

/-- A command that keeps inside returns, unless the state of a variable is gone. -/
theorem Command.returns_of_inside {c : Command}
    (hc : c = .variableCommand ∨ c = .valueCheckCommand) (he : FrameIsRaw e)
    (hinside : ∀ a ∈ c.frameAccesses e result, a.Inside e result)
    (hlenght : c = .variableCommand → ∀ lenght, integerAt result 3 = some lenght → 0 ≤ lenght) :
    (∃ s e', c.finish P id name result e = .ok (s, e')) ∨
      c.finish P id name result e = .error .danglingState := by
  rw [Command.inside_iff he] at hinside
  obtain rfl | rfl := hc
  · exact runVariable_of_bounds hinside (hlenght rfl)
  · exact .inl (runValueCheck_of_bounds he hinside)

end Faults

/-! ## The last frame of a run -/

/-- There is no last frame, or it is what a read has delivered. -/
def Framed (P : Platform) (e : Env) : Prop :=
  e.lastFrame = none ∨ ∃ id o, e.lastFrame = some (frameOf P id o)

theorem Framed.effect {P : Platform} {e e' : Env} {ws : List (Bytes × Bytes)} (h : Framed P e)
    (heffect : Effect e ws e') : Framed P e' := by
  rcases heffect.frame with heq | hnone
  · rw [Framed, heq]
    exact h
  · exact .inl hnone

section

variable {P : Platform} {sel : Nat → Nat}

theorem Framed.reachesAll {sons : List Composite} {e e' : Env} {i : Nat} {d : Composite}
    (h : Framed P e) (hr : ReachesAll P sel sons e i d e') : Framed P e' := by
  obtain ⟨pre, post, ss, _, _, hpre⟩ := hr
  exact h.effect (evalSons_effect hpre)

theorem Framed.reachesReturn {sons : List Composite} {e e' : Env} {i : Nat} {d : Composite}
    (h : Framed P e) (hr : ReachesReturn P sel sons e i d e') : Framed P e' := by
  obtain ⟨pre, post, ss, _, _, hpre, _⟩ := hr
  exact h.effect (evalSonsReturn_effect hpre)

/-- A read puts a frame of its own in front of its sons. -/
theorem Framed.son {c d : Composite} {e e' : Env} {i : Nat} (h : Framed P e)
    (hr : RunsSon P sel c e i d e') : Framed P e' := by
  cases hr with
  | sequence _ hr => exact h.reachesReturn hr
  | send _ hr => exact h.reachesAll hr
  | command _ hr => exact h.reachesAll hr
  | read _ _ hstart hr =>
      refine Framed.reachesAll ?_ hr
      rw [(roundStart_ok hstart).2]
      exact .inr ⟨_, _, rfl⟩
  | alternative hr => exact h.reachesAll hr
  | copy _ hcopies hr =>
      have hcopy := runTimes_effect (returnAction_effect evalSonsReturn_effect) hcopies
      exact (h.effect hcopy).reachesReturn hr

/-- At every node that is run the last frame is what a read has delivered, if there is
one. -/
theorem Visits.framed {c x : Composite} {e e' : Env} (h : Visits P sel c e x e')
    (he : Framed P e) : Framed P e' := by
  induction h with
  | refl => exact he
  | son hr _ ih => exact ih (he.son hr)

/-! ## Commands of a run -/

/-- The run of a node from `e` runs the command `c` on `result` in `e'`. -/
def RunsCommand (P : Platform) (sel : Nat → Nat) (root : Composite) (e : Env) (c : Command)
    (result : List State) (e' : Env) : Prop :=
  ∃ id name sons e₁, Visits P sel root e (.node .composite id name sons) e₁ ∧
    factoryAction sons = .command c ∧ c.usage sons.length e₁ = .ok ((), e₁) ∧
    evalSons P sel sons e₁ = .ok (result, e')

/-- The command is among the children of a read. -/
def RunsCommandInRead (P : Platform) (sel : Nat → Nat) (root : Composite) (e : Env) (c : Command)
    (result : List State) (e' : Env) : Prop :=
  ∃ id name sons socket e₁ i d e₂, Visits P sel root e (.node .composite id name sons) e₁ ∧
    factoryAction sons = .readAction socket ∧
    RunsSon P sel (.node .composite id name sons) e₁ i d e₂ ∧
    RunsCommand P sel d e₂ c result e'

/-- A `Variable` anywhere, and a `ValueCheck` among the children of a read. -/
inductive UsesFrame (P : Platform) (sel : Nat → Nat) (root : Composite) (e : Env) :
    Command → List State → Env → Prop where
  | capture {result : List State} {e' : Env}
      (h : RunsCommand P sel root e .variableCommand result e') :
      UsesFrame P sel root e .variableCommand result e'
  | check {result : List State} {e' : Env}
      (h : RunsCommandInRead P sel root e .valueCheckCommand result e') :
      UsesFrame P sel root e .valueCheckCommand result e'

theorem RunsCommand.framed {root : Composite} {e e' : Env} {c : Command} {result : List State}
    (h : RunsCommand P sel root e c result e') (he : Framed P e) : Framed P e' := by
  obtain ⟨id, name, sons, e₁, hvisits, _, _, hsons⟩ := h
  exact (hvisits.framed he).effect (evalSons_effect hsons)

theorem UsesFrame.framed {root : Composite} {e e' : Env} {c : Command} {result : List State}
    (h : UsesFrame P sel root e c result e') (he : Framed P e) : Framed P e' := by
  cases h with
  | capture h => exact h.framed he
  | check h =>
      obtain ⟨id, name, sons, socket, e₁, i, d, e₂, hvisits, _, hson, hcommand⟩ := h
      exact hcommand.framed ((hvisits.framed he).son hson)

end

namespace Main

end Main

end Stress

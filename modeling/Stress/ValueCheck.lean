import Stress.Command

/-!
# The comparison of `ValueCheck`

`wrmemcmp` adds up the bytewise differences as signed characters and takes a sum of
zero for equality.  A difference in the top bit counts `-128`, so other differences can
make up for it.

`value_check_iff` says exactly for which bytes the check is an equality: the low seven
bits of the differences do not add up to 128 for each difference in a top bit.
-/

namespace Stress

/-! ## The sum -/

/-- The differences of two texts, byte by byte. -/
def differences (x y : Bytes) : Bytes := List.zipWith (· ^^^ ·) x y

/-- What the low seven bits of the differences add up to. -/
def lowBits (ds : Bytes) : Nat := (ds.map fun d => d.toNat % 128).sum

/-- The number of differences in the top bit. -/
def topBits (ds : Bytes) : Nat := ds.countP fun d => 128 ≤ d

theorem toInt_toInt8 (d : UInt8) :
    d.toInt8.toInt = (d.toNat % 128 : Nat) - (if 128 ≤ d then 128 else 0 : Int) := by
  revert d
  exact forall_byte (by decide +kernel)

/-- The sum of the differences as signed characters. -/
theorem sum_signed (ds : Bytes) :
    (ds.map fun d => d.toInt8.toInt).sum = (lowBits ds : Int) - 128 * topBits ds := by
  induction ds with
  | nil => rfl
  | cons d ds ih =>
      rw [List.map_cons, List.sum_cons, ih, toInt_toInt8, lowBits, lowBits, List.map_cons,
        List.sum_cons, topBits, topBits, List.countP_cons]
      simp only [decide_eq_true_eq]
      split <;> push_cast <;> ring

/-- A text has no differences from itself. -/
theorem lowBits_differences_self (x : Bytes) :
    lowBits (differences x x) = 128 * topBits (differences x x) := by
  induction x with
  | nil => rfl
  | cons c x ih =>
      rw [differences, lowBits, topBits] at ih
      rw [differences, lowBits, topBits, List.zipWith_cons_cons, UInt8.xor_self, List.map_cons,
        List.sum_cons, List.countP_cons, ih]
      exact Nat.zero_add _

theorem charAt_of_lt {s : Bytes} {i : Int} (h0 : 0 ≤ i) (hi : i < s.length) :
    charAt s i = .ok (s.getD i.toNat 0) :=
  if_pos ⟨h0, hi.le⟩

/-- By induction on the length, as the loop goes. -/
theorem wrmemcmp_eq {first second : Bytes} {start : Int} {n : Nat} (hstart : 0 ≤ start)
    (hfirst : start + n ≤ first.length) (hsecond : n ≤ second.length) :
    wrmemcmp first second start n = .ok (((differences ((first.drop start.toNat).take n)
      (second.take n)).map fun d => d.toInt8.toInt).sum) := by
  induction n with
  | zero => rfl
  | succ n ih =>
      have hlen : n < (first.drop start.toNat).length := by
        rw [List.length_drop]
        omega
      have hat : first.getD (start + n).toNat 0 = (first.drop start.toNat)[n] := by
        have hidx : (start + n).toNat = start.toNat + n := by omega
        rw [List.getElem_drop, hidx, List.getD_eq_getElem?_getD, List.getElem?_eq_getElem]
        rfl
      have hat' : second.getD (n : Int).toNat 0 = second[n] := by
        rw [Int.toNat_natCast, List.getD_eq_getElem?_getD, List.getElem?_eq_getElem (by omega)]
        rfl
      rw [wrmemcmp, ih (by push_cast at hfirst; omega) (by omega),
        charAt_of_lt (by omega) (by push_cast at hfirst; omega), charAt_of_lt (by omega) (by omega),
        hat, hat', List.take_succ_eq_append_getElem hlen,
        List.take_succ_eq_append_getElem (by omega), differences, differences,
        List.zipWith_append (by simp; omega), List.map_append, List.sum_append]
      simp
      rfl

/-! ## The command -/

/-- The bytes of the frame that a check compares. -/
def checkedBytes (frame : Bytes) (start size : Int) : Bytes :=
  (frame.drop start.toNat).take size.toNat

/-- A difference that does not cancel out. -/
def ShowsDifference (x y : Bytes) : Prop :=
  x = y ∨ lowBits (differences x y) ≠ 128 * topBits (differences x y)

instance (x y : Bytes) : Decidable (ShowsDifference x y) := inferInstanceAs (Decidable (_ ∨ _))

/-- The arguments of a check of `size` bytes at `start` of the last frame, inside of it
and of the expected value. -/
structure CheckArguments (e : Env) (result : List State) (frame : Bytes) (start size : Int)
    (expected : Bytes) : Prop where
  frame_eq : ∃ f, e.lastFrame = some f ∧ f.getStringToSend = frame
  start_eq : ∃ a, result[1]? = some a ∧ atoi a.getStringToSend = start
  size_eq : ∃ a, result[2]? = some a ∧ atoi a.getStringToSend = size
  expected_eq : ∃ a, result[3]? = some a ∧ a.getStringToSend = expected
  start_nonneg : 0 ≤ start
  le_frame : start + size ≤ frame.length
  le_expected : size ≤ expected.length

/-- The check fails if and only if the bytes `x` and `y` are not equal. -/
def ChecksEquality (P : Platform) (id : Nat) (name : Bytes) (result : List State) (e : Env)
    (x y : Bytes) : Prop :=
  ∃ s, runValueCheck P id name result e = .ok (s, e) ∧ (s.isFailValue = false ↔ x = y)

section

variable {P : Platform} {id : Nat} {name : Bytes} {result : List State} {e : Env}
  {frame expected : Bytes} {start size : Int}

theorem wireArgument_eq {k : Nat} {a : State} (ha : result[k]? = some a) :
    wireArgument result k e = .ok (a.getStringToSend, e) := by
  rw [wireArgument, argument, ha]
  rfl

theorem runValueCheck_eq (P : Platform) (id : Nat) (name : Bytes)
    (h : CheckArguments e result frame start size expected) :
    ∃ s, runValueCheck P id name result e = .ok (s, e) ∧ (s.isFailValue = false ↔
      ((differences (checkedBytes frame start size) (expected.take size.toNat)).map
        fun d => d.toInt8.toInt).sum = 0) := by
  obtain ⟨f, hf, rfl⟩ := h.frame_eq
  obtain ⟨a₁, h₁, rfl⟩ := h.start_eq
  obtain ⟨a₂, h₂, rfl⟩ := h.size_eq
  obtain ⟨a₃, h₃, rfl⟩ := h.expected_eq
  have hlast : getLastFrame e = .ok (f, e) := by rw [getLastFrame, hf]
  have hend := h.le_frame
  have hlen := h.le_expected
  have hcmp : ofExcept (wrmemcmp f.getStringToSend a₃.getStringToSend (atoi a₁.getStringToSend)
      (atoi a₂.getStringToSend).toNat) e = .ok (((differences (checkedBytes f.getStringToSend
        (atoi a₁.getStringToSend) (atoi a₂.getStringToSend)) (a₃.getStringToSend.take
          (atoi a₂.getStringToSend).toNat)).map fun d => d.toInt8.toInt).sum, e) := by
    by_cases hsize : 0 ≤ atoi a₂.getStringToSend
    · rw [wrmemcmp_eq h.start_nonneg (by omega) (by omega)]
      rfl
    · rw [checkedBytes, Int.toNat_of_nonpos (by omega)]
      rfl
  simp only [runValueCheck, Comp.bind_eq, hlast, wireArgument_eq h₁, wireArgument_eq h₂,
    wireArgument_eq h₃, hcmp]
  split
  · next heq => exact ⟨_, rfl, fun _ => heq, fun _ => rfl⟩
  · next hne => exact ⟨_, rfl, nofun, fun heq => absurd heq hne⟩

/-- Where the positions are inside of the frame and of the expected value, the check is
an equality if and only if the bytes are equal or their differences do not cancel out. -/
theorem value_check_iff (h : CheckArguments e result frame start size expected) :
    ChecksEquality P id name result e (checkedBytes frame start size)
        (expected.take size.toNat) ↔
      ShowsDifference (checkedBytes frame start size) (expected.take size.toNat) := by
  obtain ⟨s, hs, hfail⟩ := runValueCheck_eq P id name h
  generalize checkedBytes frame start size = x at hfail
  generalize expected.take size.toNat = y at hfail
  have hsum : s.isFailValue = false ↔
      lowBits (differences x y) = 128 * topBits (differences x y) := by
    rw [hfail, sum_signed]
    omega
  have hmeets : ChecksEquality P id name result e x y ↔ (s.isFailValue = false ↔ x = y) := by
    refine ⟨?_, fun h => ⟨s, hs, h⟩⟩
    rintro ⟨s', hs', h⟩
    rw [hs] at hs'
    cases hs'
    exact h
  have hself : x = y → lowBits (differences x y) = 128 * topBits (differences x y) := by
    rintro rfl
    exact lowBits_differences_self x
  rw [hmeets, hsum, ShowsDifference]
  constructor
  · intro h
    by_cases heq : x = y
    · exact .inl heq
    · exact .inr fun hlow => heq (h.mp hlow)
  · rintro (heq | hne)
    · exact ⟨fun _ => heq, hself⟩
    · exact ⟨fun hlow => absurd hlow hne, hself⟩

end

/-! ## Two bytes -/

/-- The results of a check of two bytes at the beginning of the frame. -/
def twoBytes (frame expected : Bytes) : Env × List State :=
  let text (b : Bytes) : State :=
    (State.valueStringState 0).update (StateData.setStringValue b)
  ({ lastFrame := some (text frame) }, [text [], text (ascii "0"), text (ascii "2"), text expected])

theorem checkArguments_twoBytes (frame expected : Bytes) (hframe : frame.length = 2)
    (hexpected : expected.length = 2) : CheckArguments (twoBytes frame expected).1
      (twoBytes frame expected).2 frame 0 2 expected where
  frame_eq := ⟨_, rfl, rfl⟩
  start_eq := ⟨_, rfl, rfl⟩
  size_eq := ⟨_, rfl, rfl⟩
  expected_eq := ⟨_, rfl, rfl⟩
  start_nonneg := Int.le_refl 0
  le_frame := by rw [hframe]; rfl
  le_expected := by rw [hexpected]; rfl

theorem value_check_iff_twoBytes :
    ChecksEquality ⟨fun b => b, 0⟩ 0 [] (twoBytes [1, 2] [1, 3]).2 (twoBytes [1, 2] [1, 3]).1
      [1, 2] [1, 3] :=
  (value_check_iff (checkArguments_twoBytes [1, 2] [1, 3] rfl rfl)).mpr (by decide)

/-- The differences `1` and `-1` cancel out. -/
theorem differences_cancel : ¬ ∀ (P : Platform) (id : Nat) (name : Bytes) (result : List State)
    (e : Env) (frame : Bytes) (start size : Int) (expected : Bytes),
    CheckArguments e result frame start size expected →
    ChecksEquality P id name result e (checkedBytes frame start size)
      (expected.take size.toNat) := by
  intro hall
  obtain ⟨s, hs, hcheck⟩ := hall ⟨fun b => b, 0⟩ 0 [] _ _ _ _ _ _
    (checkArguments_twoBytes [1, 255] [0, 0] rfl rfl)
  cases hs
  cases hcheck.mp rfl

end Stress

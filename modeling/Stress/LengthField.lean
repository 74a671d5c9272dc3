import Stress.Command

/-!
# Length fields

`LengthCommand::runAction` copies the length, an `unsigned int`, byte by byte from the
end of its own buffer, as many bytes as the size argument says.  From the fifth byte on
it reads behind the four of the length.  Without a size argument it leaves its state
empty, although its comment says that the size depends on the value then.

`length_field_iff` compares it with the big-endian numerals of `bigEndianOf` and
`shortestOf`.
-/

namespace Stress

/-! ## Big-endian numerals -/

/-- The last `k` digits of `n` to the base 256, most significant first. -/
def bigEndianOf : Nat → Nat → Bytes
  | 0, _ => []
  | k + 1, n => bigEndianOf k (n / 256) ++ [n.toUInt8]

/-- The shortest numeral of `n`, of one byte at least. -/
def shortestOf (n : Nat) : Bytes := bigEndianOf (Nat.log 256 n + 1) n

@[simp] theorem length_bigEndianOf (k n : Nat) : (bigEndianOf k n).length = k := by
  induction k generalizing n with
  | zero => rfl
  | succ k ih => rw [bigEndianOf, List.length_append, ih, List.length_singleton]

theorem bigEndian_append (b : Bytes) (c : UInt8) :
    bigEndian (b ++ [c]) = 256 * bigEndian b + c.toNat := by
  rw [bigEndian, List.foldl_append]
  rfl

/-- The numeral of `k` digits denotes the number modulo `256 ^ k`. -/
theorem bigEndian_bigEndianOf (k n : Nat) : bigEndian (bigEndianOf k n) = n % 256 ^ k := by
  induction k generalizing n with
  | zero =>
      rw [bigEndianOf, Nat.pow_zero, Nat.mod_one]
      rfl
  | succ k ih =>
      have hc : n.toUInt8.toNat = n % 256 := rfl
      rw [bigEndianOf, bigEndian_append, ih, hc, Nat.pow_succ', Nat.mod_mul, Nat.add_comm]

/-- The shortest numeral denotes the number. -/
theorem bigEndian_shortestOf (n : Nat) : bigEndian (shortestOf n) = n := by
  rw [shortestOf, bigEndian_bigEndianOf]
  exact Nat.mod_eq_of_lt (Nat.lt_pow_succ_log_self (by decide) n)

theorem toUInt8_eq {m n : Nat} (h : m % 256 = n % 256) : m.toUInt8 = n.toUInt8 :=
  UInt8.toNat_inj.mp h

/-- The last bytes of the length, as the loop copies them. -/
theorem reverse_take_bytesOfInt {k : Nat} (hk : k ≤ 4) (n : Nat) :
    ((bytesOfInt n).take k).reverse = bigEndianOf k n := by
  obtain ⟨m, hm⟩ : ∃ m, m = ((n : Int) % 2 ^ 32).toNat := ⟨_, rfl⟩
  have hbytes : bytesOfInt n = [n.toUInt8, (n / 256).toUInt8, (n / 256 / 256).toUInt8,
      (n / 256 / 256 / 256).toUInt8] := by
    rw [bytesOfInt, ← hm]
    simp only [List.cons.injEq, and_true]
    refine ⟨toUInt8_eq ?_, toUInt8_eq ?_, toUInt8_eq ?_, toUInt8_eq ?_⟩ <;> omega
  rw [hbytes]
  match k, hk with
  | 0, _ => rfl
  | 1, _ => rfl
  | 2, _ => rfl
  | 3, _ => rfl
  | 4, _ => rfl

/-! ## The command -/

/-- The result of a size argument, with the number it stands for. -/
structure SizeArgument where
  state : State
  value : Nat
  getIntegerValue_eq : state.getIntegerValue = .ok value
  value_pos : 1 ≤ value

/-- The results of the two or three sons. -/
structure LengthArguments where
  command : State
  data : State
  size : Option SizeArgument

namespace LengthArguments

variable (a : LengthArguments)

def result : List State :=
  match a.size with
  | none => [a.command, a.data]
  | some k => [a.command, a.data, k.state]

/-- What the documentation says is sent. -/
def documented : Bytes :=
  match a.size with
  | none => shortestOf a.data.getStringToSend.length
  | some k => bigEndianOf k.value a.data.getStringToSend.length

/-- The command returns a state that sends what the documentation says. -/
def MeetsDocumentation (P : Platform) (id : Nat) (e : Env) : Prop :=
  ∃ s, runLength P id a.result e = .ok (s, e) ∧ s.getStringToSend = a.documented

end LengthArguments

/-- The command does what its documentation says if and only if there is a size
argument and it is 4 at most. -/
theorem length_field_iff (P : Platform) (id : Nat) (e : Env) (a : LengthArguments) :
    a.MeetsDocumentation P id e ↔ ∃ k, a.size = some k ∧ k.value ≤ 4 := by
  obtain ⟨command, data, size⟩ := a
  rw [LengthArguments.MeetsDocumentation, LengthArguments.result, LengthArguments.documented]
  cases size with
  | none =>
      refine ⟨?_, fun ⟨k, hk, _⟩ => by cases hk⟩
      rintro ⟨s, hs, hsend⟩
      cases hs
      -- Nothing is sent, but the shortest numeral has a byte.
      have hlen := congrArg List.length hsend
      rw [shortestOf, length_bigEndianOf] at hlen
      cases hlen
  | some k =>
      have hrun : runLength P id [command, data, k.state] e =
          if 4 < k.value then .error .outOfBounds
          else .ok (((State.valueHexState id).update (StateData.setRawValue P.uninit
            ((bytesOfInt data.getStringToSend.length).take k.value).reverse k.value)).push
              [command, data, k.state], e) := by
        have hsize : integerArgument [command, data, k.state] 2 e = .ok (k.value, e) := by
          rw [integerArgument]
          simp only [argument, List.getElem?_cons_succ, List.getElem?_cons_zero, pure_bind,
            k.getIntegerValue_eq]
          rfl
        have hwire : wireArgument [command, data, k.state] 1 e = .ok (data.getStringToSend, e) :=
          rfl
        have hnat : ¬ ((k.value : Int) < 0) := by omega
        have hfour : (4 < (k.value : Int)) ↔ 4 < k.value := by omega
        rw [runLength]
        simp only [List.length_cons, List.length_nil, Nat.reduceAdd, if_true, Comp.bind_eq, hsize,
          hwire, hnat, if_false, hfour, Int.toNat_natCast]
        split <;> rfl
      simp only [hrun]
      constructor
      · rintro ⟨s, hs, _⟩
        refine ⟨k, rfl, ?_⟩
        by_contra hlt
        rw [if_pos (by omega)] at hs
        cases hs
      · rintro ⟨k', hk', hle⟩
        cases hk'
        rw [if_neg (by omega)]
        refine ⟨_, rfl, ?_⟩
        rw [State.getStringToSend_eq, State.data_push, State.data_update,
          reverse_take_bytesOfInt hle]
        show (bigEndianOf k.value data.getStringToSend.length).take k.value = _
        exact List.take_of_length_le (Nat.le_of_eq (length_bigEndianOf _ _))

/-- Without a size argument nothing is sent. -/
theorem length_without_size_is_empty : ¬ ∀ (P : Platform) (id : Nat) (e : Env)
    (a : LengthArguments), a.MeetsDocumentation P id e := by
  intro hall
  obtain ⟨s, hs, hsend⟩ := hall ⟨fun b => b, 0⟩ 0 {} ⟨State.okState 0, State.okState 1, none⟩
  cases hs
  cases hsend

end Stress

import Stress.Steps

/-!
# Base64

The codec of the two Base64 commands is the standard one: `base64_encode` writes each
block of three bytes as four digits to the base 64 and pads a short block, and
`base64_decode` gives the bytes back.

The commands around it do not fit together.  `Base64EncodeCommand::runAction` puts quotes
around the text, and `ValueStringState` sends them.  `base64_decode` stops at the first
of them.
-/

namespace Stress

/-! ## The standard text -/

/-- The digit for a number below 64. -/
def base64Char (i : Nat) : UInt8 := base64Chars.getD i 0

/-- The last `k` digits of `n` to the base 64, most significant first. -/
def sextets : Nat → Nat → List Nat
  | 0, _ => []
  | k + 1, n => sextets k (n / 64) ++ [n % 64]

theorem length_sextets (k n : Nat) : (sextets k n).length = k := by
  induction k generalizing n with
  | zero => rfl
  | succ k ih => rw [sextets, List.length_append, ih, List.length_singleton]

/-- The leading digits are those of the number without the others. -/
theorem take_sextets (k j n : Nat) : (sextets (k + j) n).take k = sextets k (n / 64 ^ j) := by
  induction j generalizing n with
  | zero => rw [Nat.add_zero, List.take_of_length_le (length_sextets k n).le, Nat.pow_zero,
      Nat.div_one]
  | succ j ih =>
      rw [← Nat.add_assoc, sextets, List.take_append_of_le_length, ih, Nat.div_div_eq_div_mul,
        Nat.pow_succ, Nat.mul_comm]
      rw [length_sextets]
      exact Nat.le_add_right k j

/-- The text of a block of three bytes at most.  The bits of a short block are filled up
with zeros to whole digits, and the text with `=` to four characters. -/
def standardBlock (b : Bytes) : Bytes :=
  (sextets (b.length + 1) (bigEndian b * 4 ^ (3 - b.length))).map base64Char ++
    List.replicate (3 - b.length) 61

/-- The standard padded Base64 text. -/
def standardBase64 : Bytes → Bytes
  | a :: b :: c :: s => standardBlock [a, b, c] ++ standardBase64 s
  | [a, b] => standardBlock [a, b]
  | [a] => standardBlock [a]
  | [] => []

/-! ## Digits of a block -/

def sextet₁ (a : UInt8) : UInt8 := (a &&& 0xfc) >>> 2

def sextet₂ (a b : UInt8) : UInt8 := ((a &&& 0x03) <<< 4) + ((b &&& 0xf0) >>> 4)

def sextet₃ (b c : UInt8) : UInt8 := ((b &&& 0x0f) <<< 2) + ((c &&& 0xc0) >>> 6)

def sextet₄ (c : UInt8) : UInt8 := c &&& 0x3f

/-- What the masks and shifts of the two functions do to one byte. -/
theorem toNat_masks (c : UInt8) :
    ((c &&& 0xfc) >>> 2).toNat = c.toNat / 4 ∧ ((c &&& 0x03) <<< 4).toNat = c.toNat % 4 * 16 ∧
    ((c &&& 0xf0) >>> 4).toNat = c.toNat / 16 ∧ ((c &&& 0x0f) <<< 2).toNat = c.toNat % 16 * 4 ∧
    ((c &&& 0xc0) >>> 6).toNat = c.toNat / 64 ∧ (c &&& 0x3f).toNat = c.toNat % 64 ∧
    (c <<< 2).toNat = c.toNat * 4 % 256 ∧ ((c &&& 0x30) >>> 4).toNat = c.toNat / 16 % 4 ∧
    ((c &&& 0xf) <<< 4).toNat = c.toNat % 16 * 16 ∧ ((c &&& 0x3c) >>> 2).toNat = c.toNat / 4 % 16 ∧
    ((c &&& 0x3) <<< 6).toNat = c.toNat % 4 * 64 := by
  revert c
  exact forall_byte (by decide +kernel)

theorem toNat_sextet₁ (a : UInt8) : (sextet₁ a).toNat = a.toNat / 4 := (toNat_masks a).1

theorem toNat_sextet₂ (a b : UInt8) : (sextet₂ a b).toNat = a.toNat % 4 * 16 + b.toNat / 16 := by
  rw [sextet₂, UInt8.toNat_add, (toNat_masks a).2.1, (toNat_masks b).2.2.1]
  have hb := b.toNat_lt
  omega

theorem toNat_sextet₃ (b c : UInt8) : (sextet₃ b c).toNat = b.toNat % 16 * 4 + c.toNat / 64 := by
  rw [sextet₃, UInt8.toNat_add, (toNat_masks b).2.2.2.1, (toNat_masks c).2.2.2.2.1]
  have hc := c.toNat_lt
  omega

theorem toNat_sextet₄ (c : UInt8) : (sextet₄ c).toNat = c.toNat % 64 := (toNat_masks c).2.2.2.2.2.1

/-- The four characters of `base64_encode` are the digits of the three bytes. -/
theorem base64Quad_eq (a b c : UInt8) :
    base64Quad a b c = (sextets 4 (bigEndian [a, b, c])).map base64Char := by
  have hdigits : [sextet₁ a, sextet₂ a b, sextet₃ b c, sextet₄ c].map UInt8.toNat =
      sextets 4 (bigEndian [a, b, c]) := by
    have ha := a.toNat_lt
    have hb := b.toNat_lt
    have hc := c.toNat_lt
    simp only [List.map_cons, List.map_nil, toNat_sextet₁, toNat_sextet₂, toNat_sextet₃,
      toNat_sextet₄, sextets, bigEndian, List.foldl_cons, List.foldl_nil, List.nil_append,
      List.cons_append, List.cons.injEq, and_true]
    refine ⟨?_, ?_, ?_, ?_⟩ <;> omega
  rw [← hdigits, List.map_map]
  rfl

/-- `base64_encode` writes the standard text. -/
theorem base64Encode_eq : ∀ b : Bytes, base64Encode b = standardBase64 b
  | a :: b :: c :: s => by
      rw [base64Encode, standardBase64, base64Encode_eq s, base64Quad_eq]
      simp [standardBlock]
  | [a, b] => by
      have hshift : bigEndian [a, b, 0] / 64 ^ 1 = bigEndian [a, b] * 4 ^ 1 := by
        change (256 * bigEndian [a, b] + 0) / 64 ^ 1 = _
        omega
      rw [base64Encode, standardBase64, base64Quad_eq, ← List.map_take, take_sextets 3 1, hshift]
      rfl
  | [a] => by
      have hshift : bigEndian [a, 0, 0] / 64 ^ 2 = bigEndian [a] * 4 ^ 2 := by
        change (256 * (256 * bigEndian [a] + 0) + 0) / 64 ^ 2 = _
        omega
      rw [base64Encode, standardBase64, base64Quad_eq, ← List.map_take, take_sextets 2 2, hshift]
      rfl
  | [] => by rw [base64Encode, standardBase64]

/-! ## Decoding -/

/-- The positions that `base64_decode` finds for the characters of a text. -/
def digitPositions (s : Bytes) : Bytes :=
  (s.takeWhile isBase64).map fun c => (base64Chars.idxOf c).toUInt8

/-- A digit is found again. -/
theorem digitPositions_digits (codes : Bytes) (hlt : ∀ i ∈ codes, i.toNat < 64) (s : Bytes) :
    digitPositions ((codes.map fun i => base64Chars.getD i.toNat 0) ++ s) =
      codes ++ digitPositions s := by
  induction codes with
  | nil => rfl
  | cons i codes ih =>
      obtain ⟨hi, hcodes⟩ := List.forall_mem_cons.mp hlt
      have hchar : ∀ n < 64, isBase64 (base64Chars.getD n 0) = true ∧
          (base64Chars.idxOf (base64Chars.getD n 0)).toUInt8 = n.toUInt8 := by
        decide +kernel
      obtain ⟨hbase, hidx⟩ := hchar i.toNat hi
      have hi' : i.toNat.toUInt8 = i := UInt8.ofNat_toNat
      rw [List.map_cons, List.cons_append, digitPositions, List.takeWhile_cons, if_pos hbase,
        List.map_cons, hidx, hi', ← digitPositions, ih hcodes, List.cons_append]

theorem toNat_lt_of_mem_sextets {a b c i : UInt8}
    (hi : i ∈ [sextet₁ a, sextet₂ a b, sextet₃ b c, sextet₄ c]) : i.toNat < 64 := by
  have ha := a.toNat_lt
  have hb := b.toNat_lt
  have hc := c.toNat_lt
  simp only [List.mem_cons, List.not_mem_nil, or_false] at hi
  rcases hi with rfl | rfl | rfl | rfl
  · rw [toNat_sextet₁]
    omega
  · rw [toNat_sextet₂]
    omega
  · rw [toNat_sextet₃]
    omega
  · rw [toNat_sextet₄]
    omega

theorem decode_first (a b : UInt8) :
    (sextet₁ a <<< 2) + ((sextet₂ a b &&& 0x30) >>> 4) = a := by
  have ha := a.toNat_lt
  have hb := b.toNat_lt
  rw [← UInt8.toNat_inj, UInt8.toNat_add, (toNat_masks _).2.2.2.2.2.2.1,
    (toNat_masks _).2.2.2.2.2.2.2.1, toNat_sextet₁, toNat_sextet₂]
  omega

theorem decode_second (a b c : UInt8) :
    ((sextet₂ a b &&& 0xf) <<< 4) + ((sextet₃ b c &&& 0x3c) >>> 2) = b := by
  have hb := b.toNat_lt
  have hc := c.toNat_lt
  rw [← UInt8.toNat_inj, UInt8.toNat_add, (toNat_masks _).2.2.2.2.2.2.2.2.1,
    (toNat_masks _).2.2.2.2.2.2.2.2.2.1, toNat_sextet₂, toNat_sextet₃]
  omega

theorem decode_third (b c : UInt8) : ((sextet₃ b c &&& 0x3) <<< 6) + sextet₄ c = c := by
  have hc := c.toNat_lt
  rw [← UInt8.toNat_inj, UInt8.toNat_add, (toNat_masks _).2.2.2.2.2.2.2.2.2.2, toNat_sextet₃,
    toNat_sextet₄]
  omega

/-- The codec gives the bytes back. -/
theorem base64Decode_base64Encode : ∀ b : Bytes, base64Decode (base64Encode b) = b
  | a :: b :: c :: s => by
      have hrest := base64Decode_base64Encode s
      rw [base64Decode] at hrest ⊢
      rw [base64Encode, base64Quad]
      change base64Groups (digitPositions _) = _
      rw [← sextet₁, ← sextet₂, ← sextet₃, ← sextet₄,
        digitPositions_digits _ fun i => toNat_lt_of_mem_sextets]
      change base64Triple _ _ _ _ ++ base64Groups (digitPositions (base64Encode s)) = _
      rw [digitPositions, hrest, base64Triple, decode_first, decode_second, decode_third]
      rfl
  | [a, b] => by
      have hlt : ∀ i ∈ [sextet₁ a, sextet₂ a b, sextet₃ b 0], i.toNat < 64 := fun i hi =>
        toNat_lt_of_mem_sextets (c := 0) (List.mem_of_mem_take (i := 3) hi)
      change base64Groups (digitPositions (([sextet₁ a, sextet₂ a b, sextet₃ b 0].map
        fun i => base64Chars.getD i.toNat 0) ++ [61])) = _
      rw [digitPositions_digits _ hlt]
      change [(sextet₁ a <<< 2) + ((sextet₂ a b &&& 0x30) >>> 4),
        ((sextet₂ a b &&& 0xf) <<< 4) + ((sextet₃ b 0 &&& 0x3c) >>> 2)] = _
      rw [decode_first, decode_second]
  | [a] => by
      have hlt : ∀ i ∈ [sextet₁ a, sextet₂ a 0], i.toNat < 64 := fun i hi =>
        toNat_lt_of_mem_sextets (c := 0) (List.mem_of_mem_take (i := 2) hi)
      change base64Groups (digitPositions (([sextet₁ a, sextet₂ a 0].map
        fun i => base64Chars.getD i.toNat 0) ++ [61, 61])) = _
      rw [digitPositions_digits _ hlt]
      change [(sextet₁ a <<< 2) + ((sextet₂ a 0 &&& 0x30) >>> 4)] = _
      rw [decode_first]
  | [] => rfl

/-! ## The commands -/

/-- A Base64Encode command over a list of arguments. -/
def encodeNode (id command : Nat) (name : Bytes) (args : List Composite) : Composite :=
  .node .composite id name (.leaf .commandComposite command (ascii "<%Base64Encode%>") :: args)

/-- A Base64Decode command over one argument. -/
def decodeNode (id command : Nat) (name : Bytes) (arg : Composite) : Composite :=
  .node .composite id name [.leaf .commandComposite command (ascii "<%Base64Decode%>"), arg]

/-- Over an argument list that sends `b` the first node sends the standard text of `b`,
and the second node, over the first, sends `b`. -/
def InverseCommands (P : Platform) (sel : Nat → Nat) (e : Env) (encode decode : Composite)
    (b : Bytes) : Prop :=
  (∃ s e', eval P sel encode e = .ok (s, e') ∧ s.getStringToSend = standardBase64 b) ∧
  ∃ s e', eval P sel decode e = .ok (s, e') ∧ s.getStringToSend = b

section

variable {P : Platform} {sel : Nat → Nat} {e e' : Env} {args : List Composite}
  {result : List State}

/-- The text is sent in quotes. -/
theorem eval_encodeNode (h : evalSons P sel args e = .ok (result, e')) (id command : Nat)
    (name : Bytes) : ∃ s, eval P sel (encodeNode id command name args) e = .ok (s, e') ∧
      s.getStringToSend = 34 :: standardBase64 (result.flatMap State.getStringToSend) ++ [34] := by
  refine ⟨_, (eval_command rfl h rfl id command name).trans rfl, ?_⟩
  rw [← base64Encode_eq]
  rfl

/-- The first quote ends the text. -/
theorem eval_decodeNode {encode : Composite} {s : State} (h : eval P sel encode e = .ok (s, e'))
    {text : Bytes} (hs : s.getStringToSend = 34 :: text) (id command : Nat) (name : Bytes) :
    ∃ s', eval P sel (decodeNode id command name encode) e = .ok (s', e') ∧
      s'.getStringToSend = [] := by
  have hsons : evalSons P sel [encode] e = .ok ([s], e') :=
    evalSons_cons_ok.mpr ⟨s, e', [], h, by rw [evalSons]; rfl, rfl⟩
  have htext : [State.okState command, s].flatMap State.getStringToSend = 34 :: text := by
    rw [List.flatMap_cons, List.flatMap_singleton, hs]
    rfl
  have hdecoded : base64Decode (34 :: text) = [] := rfl
  refine ⟨_, (eval_command rfl hsons rfl id command name).trans rfl, ?_⟩
  rw [htext, hdecoded]
  rfl

/-- No argument list is sent as its standard text. -/
theorem commands_never_inverse (h : evalSons P sel args e = .ok (result, e'))
    (id command id' command' : Nat) (name name' : Bytes) :
    ¬ InverseCommands P sel e (encodeNode id command name args)
      (decodeNode id' command' name' (encodeNode id command name args))
      (result.flatMap State.getStringToSend) := by
  rintro ⟨⟨s, e₁, hs, hsend⟩, _⟩
  obtain ⟨s', hs', hsend'⟩ := eval_encodeNode h id command name
  rw [hs] at hs'
  cases hs'
  have hlen := congrArg List.length (hsend.symm.trans hsend')
  rw [List.length_append, List.length_cons, List.length_singleton] at hlen
  omega

end

/-- The arguments of an encoding of `a`. -/
def oneText : List Composite := [.leaf .stringLeaf 2 (ascii "\\\"a\\\"")]

theorem evalSons_oneText : evalSons ⟨fun b => b, 0⟩ (fun _ => 0) oneText {} =
    .ok ([leafState .stringLeaf 2 (ascii "\\\"a\\\"")], {}) := by
  rw [oneText, evalSons_cons_ok]
  exact ⟨_, {}, [], by rw [eval]; rfl, by rw [evalSons]; rfl, rfl⟩

theorem commands_never_inverse_oneText : ¬ InverseCommands ⟨fun b => b, 0⟩ (fun _ => 0) {}
    (encodeNode 0 1 [] oneText) (decodeNode 3 4 [] (encodeNode 0 1 [] oneText)) (ascii "a") :=
  commands_never_inverse evalSons_oneText 0 1 3 4 [] []

/-- The text of `a` is sent as `"YQ=="` with its quotes, and decoded to nothing. -/
theorem base64_text_is_quoted : ¬ ∀ (P : Platform) (sel : Nat → Nat) (e e' : Env)
    (args : List Composite) (result : List State) (id command id' command' : Nat)
    (name name' : Bytes), evalSons P sel args e = .ok (result, e') →
    InverseCommands P sel e (encodeNode id command name args)
      (decodeNode id' command' name' (encodeNode id command name args))
      (result.flatMap State.getStringToSend) := by
  intro hall
  obtain ⟨_, s, e', hs, hsend⟩ := hall _ _ _ _ _ _ 0 1 3 4 [] [] evalSons_oneText
  obtain ⟨s₁, hs₁, hsend₁⟩ := eval_encodeNode evalSons_oneText 0 1 []
  obtain ⟨s₂, hs₂, hsend₂⟩ := eval_decodeNode hs₁ hsend₁ 3 4 []
  rw [hs] at hs₂
  cases hs₂
  exact absurd (hsend.symm.trans hsend₂) (by decide)

end Stress

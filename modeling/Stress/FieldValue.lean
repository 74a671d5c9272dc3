import Stress.HexLoops
import Stress.LengthField
import Stress.Library.Numeral

/-!
# Values of dissected fields

`Packet::getNodeFieldValue` of the dissector (`src/tools/dissector/src/model.cpp`), on a
machine that keeps the low half of a 64-bit integer first, so that `uinteger` and
`sinteger` are the low 32 bits of the value.

An integer is written in hexadecimal behind `%x`, with `setw(fi->length * 2)` and zeros as
fill.  The width fills up, but it does not cut: what is spelled is the unsigned number of
the low 32 bits.  `Spelled` asks for the digits of the bytes that the field has in the
packet, and `numeric_spelled_iff` compares the two numbers.
-/

namespace Stress

/-! ## The fields of a packet -/

/-- The types that `getNodeFieldValue` has a case for. -/
inductive FtEnum where
  | none | protocol | boolean
  | uint8 | uint16 | uint24 | uint32 | framenum | uint64
  | int8 | int16 | int24 | int32 | int64
  | absoluteTime | relativeTime
  | string | ether | bytes | uintBytes | ipv4
  | float | double | ipv6 | ipxnet | pcre | guid | oid | numTypes
  | stringz | ebcdic | uintString
  | other
deriving DecidableEq, Repr

/-- What `getNodeFieldValue` reads of a field.  The texts that Wireshark makes of it and the
dump of `get_field_hex_value` are given. -/
structure FieldInfo where
  type : FtEnum
  length : Int
  /-- The union of the integers and the address. -/
  value : BitVec 64
  secs : Int := 0
  nsecs : Int := 0
  /-- The result of `get_field_hex_value`, `none` for a null pointer. -/
  hexValue : Option StdString := .none
  /-- The result of `getNodeFieldAsString`. -/
  asString : StdString := StdString.empty
  /-- The name of the type, where there is one. -/
  ftype : Option Bytes := .none
  representation : Option Bytes := .none

namespace FieldInfo

def uinteger (fi : FieldInfo) : BitVec 32 := fi.value.setWidth 32

def sinteger (fi : FieldInfo) : Int := fi.uinteger.toInt

end FieldInfo

/-! ## Insertion into a stream -/

/-- `hex << n`. -/
def showHexNat (n : Nat) : Bytes := (Nat.toDigits 16 n).map fun c => c.toNat.toUInt8

/-- `setfill('0') << hex << setw(width) << n`. -/
def insertHex (width : Int) (n : Nat) : Bytes :=
  List.replicate (width.toNat - (showHexNat n).length) 48 ++ showHexNat n

/-- An `int` is inserted in hexadecimal as the unsigned number of its bits. -/
def insertHexInt (width i : Int) : Bytes := insertHex width (i % 2 ^ 32).toNat

namespace Util

/-- `Util::ethToHex`. -/
def ethToHex (eth : StdString) : Except StringFault Bytes :=
  if eth.length ≠ 17 then .ok (ascii "ERROR: Invalid FT_ETHER")
  else pairLoop eth setw2 3 16 intMax three_pos 0 []

end Util

namespace Packet

/-- The text for a value that is missing, and what is said about it. -/
def missing (fi : FieldInfo) (remark : Bytes) : Bytes × Bool :=
  (ascii "WARNING - missing " ++ showInt (fi.length * 4) ++ ascii " bit value: \"" ++
    fi.asString.chars ++ ascii "\"" ++ remark, false)

/-- The case of the type. -/
def rawValue (fi : FieldInfo) : Except StringFault (Bytes × Bool) :=
  match fi.type with
  | .none =>
      match fi.hexValue with
      | some hexValue => (Util.getABNFString hexValue).map fun s => (s, true)
      | .none => .ok (missing fi [])
  | .protocol =>
      .ok (ascii "WARNING - missing value (FTPROTOCOL: " ++ showInt (fi.length * 4) ++
        ascii "bit): \"" ++ fi.asString.chars ++
        ascii "\". This field shouldn't be read as a leaf.", false)
  | .boolean => .ok (ascii "%b" ++ showNat fi.uinteger.toNat, true)
  | .uint8 | .uint16 | .uint24 | .uint32 | .framenum | .uint64 | .int64 =>
      .ok (ascii "%x" ++ insertHex (fi.length * 2) fi.uinteger.toNat, true)
  | .int8 | .int16 | .int24 | .int32 =>
      .ok (ascii "%x" ++ insertHexInt (fi.length * 2) fi.sinteger, true)
  | .absoluteTime | .relativeTime =>
      .ok (ascii "%d" ++ showInt (fi.nsecs + fi.secs * 1000000), true)
  | .string =>
      match fi.hexValue with
      | some hexValue => (Util.getABNFString hexValue).map fun s => (s, true)
      | .none => .error .nullPointer
  | .ether => (Util.ethToHex fi.asString).map fun s => (ascii "%x" ++ s, true)
  | .bytes | .uintBytes => (Util.dataToHex fi.asString).map fun s => (ascii "%x" ++ s, true)
  | .ipv4 => .ok (ascii "%x" ++ insertHex (fi.length * 2) fi.uinteger.toNat, true)
  | .float | .double | .ipv6 | .ipxnet | .pcre | .guid | .oid | .numTypes | .stringz
  | .ebcdic | .uintString =>
      .ok (missing fi (ascii " (Unsupported type" ++
        (match fi.ftype with
          | some name => ascii ": " ++ name
          | .none => []) ++ ascii ")"))
  | .other => .ok (ascii "%d" ++ showNat fi.uinteger.toNat, true)

/-- The comment behind a value. -/
def comment (fi : FieldInfo) : Bytes :=
  match fi.representation with
  | some representation => ascii " ;" ++ representation
  | .none => []

/-- `Packet::getNodeFieldValue`. -/
def getNodeFieldValue (fi : Option FieldInfo) : Except StringFault (Bytes × Bool) :=
  match fi with
  | some fi =>
      (rawValue fi).map fun v => (v.1 ++ (if v.2 then comment fi else []), v.2)
  | .none => .ok ([], true)

end Packet

/-! ## Integer fields -/

/-- The integer types. -/
inductive IntType where
  | uint8 | uint16 | uint24 | uint32 | uint64
  | int8 | int16 | int24 | int32 | int64
deriving DecidableEq, Repr

namespace IntType

def ft : IntType → FtEnum
  | uint8 => .uint8
  | uint16 => .uint16
  | uint24 => .uint24
  | uint32 => .uint32
  | uint64 => .uint64
  | int8 => .int8
  | int16 => .int16
  | int24 => .int24
  | int32 => .int32
  | int64 => .int64

/-- The bytes of a value. -/
def width : IntType → Nat
  | uint8 | int8 => 1
  | uint16 | int16 => 2
  | uint24 | int24 => 3
  | uint32 | int32 => 4
  | uint64 | int64 => 8

def signed : IntType → Bool
  | int8 | int16 | int24 | int32 | int64 => true
  | _ => false

/-- The number that the bytes of a field stand for, most significant first. -/
def number (type : IntType) (b : Bytes) : Int :=
  if type.signed = true ∧ 256 ^ type.width ≤ 2 * bigEndian b then
    bigEndian b - 256 ^ type.width
  else
    bigEndian b

end IntType

/-- An integer field of a packet with its bytes.  The dissection has put the number of the
bytes into the 32 bits that its type reads, or into all 64. -/
structure NumericField where
  kind : IntType
  bytes : Bytes
  info : FieldInfo
  length_bytes : bytes.length = kind.width
  type_eq : info.type = kind.ft
  length_eq : info.length = kind.width
  value_eq : if kind.width ≤ 4 then info.uinteger = BitVec.ofInt 32 (kind.number bytes)
    else info.value = BitVec.ofInt 64 (kind.number bytes)

namespace NumericField

/-- The field is written as `%x` and the digits of its bytes, and no digit follows. -/
def Spelled (f : NumericField) : Prop :=
  ∃ rest, Packet.getNodeFieldValue (some f.info) =
      .ok (ascii "%x" ++ hexDump f.bytes ++ rest, true) ∧
    ∀ c ∈ rest.head?, isHexDigit c = false

/-- A value that the low 32 bits show. -/
def Visible (f : NumericField) : Prop :=
  (f.kind.signed = true → f.kind.width < 4 → 0 ≤ f.kind.number f.bytes) ∧
    (f.kind.width = 8 → 0 ≤ f.kind.number f.bytes ∧ f.kind.number f.bytes < 2 ^ 32)

instance (f : NumericField) : Decidable f.Visible :=
  inferInstanceAs (Decidable (_ ∧ _))

end NumericField

/-! ## Digits -/

/-- The character that `showHexNat` writes for a digit. -/
abbrev hexChar (c : Char) : UInt8 := c.toNat.toUInt8

theorem hexChar_digitChar : ∀ n < 16, hexChar n.digitChar = showHexDigit n := by decide

theorem showHexNat_eq (n : Nat) : showHexNat n = Numeral.shortest 16 hexChar n := rfl

theorem faithful_hexChar : Numeral.Faithful 16 hexChar := by
  intro c hc d hd h
  rw [hexChar_digitChar c hc, hexChar_digitChar d hd] at h
  have hdigit := congrArg hexDigit? h
  rw [hexDigit?_showHexDigit c hc, hexDigit?_showHexDigit d hd] at hdigit
  exact Option.some.inj hdigit

theorem bigEndian_lt (b : Bytes) : bigEndian b < 256 ^ b.length := by
  induction b using List.reverseRecOn with
  | nil => decide
  | append_singleton b c ih =>
      have hc := c.toNat_lt
      rw [bigEndian_append, List.length_append, List.length_singleton, Nat.pow_succ]
      omega

/-- A dump is the numeral of two digits for each byte. -/
theorem hexDump_eq_fixed (b : Bytes) :
    hexDump b = Numeral.fixed 16 hexChar (2 * b.length) (bigEndian b) := by
  induction b using List.reverseRecOn with
  | nil => rfl
  | append_singleton b c ih =>
      have hc := c.toNat_lt
      have hdump : hexDump (b ++ [c]) = hexDump b ++ showHexByte c := by
        simp [hexDump, List.flatMap_append]
      have hhigh : bigEndian (b ++ [c]) / 16 % 16 = c.toNat / 16 := by
        rw [bigEndian_append]
        omega
      have hlow : bigEndian (b ++ [c]) % 16 = c.toNat % 16 := by
        rw [bigEndian_append]
        omega
      have hrest : bigEndian (b ++ [c]) / 16 / 16 = bigEndian b := by
        rw [bigEndian_append]
        omega
      have hlength : 2 * (b ++ [c]).length = 2 * b.length + 1 + 1 := by
        rw [List.length_append, List.length_singleton]
        omega
      rw [hlength, Numeral.fixed, Numeral.fixed, hhigh, hlow, hrest, ← ih, hdump, showHexByte,
        hexChar_digitChar _ (by omega), hexChar_digitChar _ (by omega), List.append_assoc]
      rfl

/-- The digits that are inserted for a number are those of some bytes exactly if the bytes
stand for this number. -/
theorem insertHex_eq_hexDump_iff {b : Bytes} (hb : b ≠ []) (n : Nat) :
    insertHex (b.length * 2 : Nat) n = hexDump b ↔ n = bigEndian b := by
  have hpos : 0 < 2 * b.length := by
    have := List.length_pos_iff.mpr hb
    omega
  have hpow : (16 : Nat) ^ (2 * b.length) = 256 ^ b.length := by
    rw [Nat.pow_mul]
  have hlt := bigEndian_lt b
  rw [← hpow] at hlt
  have hfixed : n < 16 ^ (2 * b.length) → insertHex (b.length * 2 : Nat) n =
      Numeral.fixed 16 hexChar (2 * b.length) n := by
    intro hn
    rw [← Numeral.replicate_append_shortest (by decide) hn hpos, insertHex, showHexNat_eq,
      Int.toNat_natCast, Nat.mul_comm]
    rfl
  constructor
  · intro h
    have hn : n < 16 ^ (2 * b.length) := by
      have hlength := congrArg List.length h
      rw [length_hexDump, insertHex, List.length_append, showHexNat_eq] at hlength
      exact (Numeral.length_shortest_le_iff (by decide) hpos).mp
        (Nat.le_of_add_left_le (Nat.le_of_eq hlength))
    rw [hfixed hn, hexDump_eq_fixed, Numeral.fixed_inj (by decide) faithful_hexChar,
      Nat.mod_eq_of_lt hn, Nat.mod_eq_of_lt hlt] at h
    exact h
  · rintro rfl
    rw [hfixed hlt, hexDump_eq_fixed]

/-- The characters up to the first one of another kind. -/
theorem takeWhile_append_eq_left {p : UInt8 → Bool} {ds rest : Bytes}
    (hds : ∀ c ∈ ds, p c = true) (hrest : ∀ c ∈ rest.head?, p c = false) :
    (ds ++ rest).takeWhile p = ds := by
  rw [List.takeWhile_append_of_pos hds]
  cases rest with
  | nil => rw [List.takeWhile_nil, List.append_nil]
  | cons c rest => rw [List.takeWhile_cons, hrest c rfl, if_neg Bool.false_ne_true, List.append_nil]

theorem isHexDigit_of_mem_insertHex {width : Int} {n : Nat} {c : UInt8}
    (h : c ∈ insertHex width n) : isHexDigit c = true := by
  have hshow : ∀ c ∈ showHexNat n, isHexDigit c = true := by
    rw [showHexNat_eq, Numeral.shortest_eq_fixed (by decide) _ rfl]
    · refine Numeral.forall_mem_fixed (fun d hd => ?_) (by decide)
      rw [hexChar_digitChar d hd]
      exact isHexDigit_showHexDigit hd
    · rw [Numeral.shortest, List.length_map]
      exact Nat.length_toDigits_pos
  rw [insertHex, List.mem_append] at h
  cases h with
  | inl h => rw [List.eq_of_mem_replicate h]; rfl
  | inr h => exact hshow c h

/-! ## Which values are spelled -/

namespace NumericField

theorem getNodeFieldValue_eq (f : NumericField) : Packet.getNodeFieldValue (some f.info) =
    .ok (ascii "%x" ++ insertHex (f.bytes.length * 2 : Nat) f.info.uinteger.toNat ++
      Packet.comment f.info, true) := by
  have hwidth : f.info.length * 2 = (f.bytes.length * 2 : Nat) := by
    rw [f.length_eq, f.length_bytes, Nat.cast_mul]
    rfl
  have hint : insertHexInt (f.info.length * 2) f.info.sinteger =
      insertHex (f.info.length * 2) f.info.uinteger.toNat := by
    have hbits : f.info.sinteger % 2 ^ 32 = f.info.uinteger.toNat := by
      have hlt := f.info.uinteger.isLt
      rw [FieldInfo.sinteger, BitVec.toInt_eq_toNat_cond]
      split <;> omega
    rw [insertHexInt, hbits, Int.toNat_natCast]
  have hraw : Packet.rawValue f.info =
      .ok (ascii "%x" ++ insertHex (f.info.length * 2) f.info.uinteger.toNat, true) := by
    have htype := f.type_eq
    cases hkind : f.kind <;> rw [hkind, IntType.ft] at htype <;>
      simp only [Packet.rawValue, htype, hint]
  rw [Packet.getNodeFieldValue, hraw, hwidth]
  rfl

theorem bytes_ne_nil (f : NumericField) : f.bytes ≠ [] := by
  have hlength := f.length_bytes
  rintro hnil
  rw [hnil] at hlength
  cases hkind : f.kind <;> rw [hkind] at hlength <;> cases hlength

/-- The digits run up to the comment, so it is the numbers that decide. -/
theorem spelled_iff_uinteger (f : NumericField) :
    f.Spelled ↔ f.info.uinteger.toNat = bigEndian f.bytes := by
  have hcomment : ∀ c ∈ (Packet.comment f.info).head?, isHexDigit c = false := by
    intro c hc
    rw [Packet.comment] at hc
    split at hc
    · cases hc
      rfl
    · cases hc
  rw [Spelled, f.getNodeFieldValue_eq, ← insertHex_eq_hexDump_iff f.bytes_ne_nil]
  constructor
  · rintro ⟨rest, heq, hrest⟩
    have htext := congrArg Prod.fst (Except.ok.inj heq)
    rw [List.append_assoc, List.append_assoc, List.append_cancel_left_eq] at htext
    rw [← takeWhile_append_eq_left isHexDigit_of_mem_hexDump hrest, ← htext]
    exact (takeWhile_append_eq_left (fun c => isHexDigit_of_mem_insertHex) hcomment).symm
  · intro heq
    exact ⟨Packet.comment f.info, by rw [heq], hcomment⟩

/-- The number that is written, from the number of the bytes. -/
theorem uinteger_eq (f : NumericField) : (f.info.uinteger.toNat : Int) =
    if f.kind.width ≤ 4 then f.kind.number f.bytes % 2 ^ 32
    else f.kind.number f.bytes % 2 ^ 64 % 2 ^ 32 := by
  have hvalue := f.value_eq
  split at hvalue
  · next h =>
      rw [if_pos h, hvalue, BitVec.toNat_ofInt]
      omega
  · next h =>
      rw [if_neg h, FieldInfo.uinteger, hvalue, BitVec.toNat_setWidth, BitVec.toNat_ofInt]
      omega

theorem uinteger_eq_iff_visible (f : NumericField) :
    f.info.uinteger.toNat = bigEndian f.bytes ↔ f.Visible := by
  have hvalue := f.uinteger_eq
  have hlt := bigEndian_lt f.bytes
  rw [f.length_bytes] at hlt
  rw [Visible]
  cases hkind : f.kind <;>
    simp [hkind, IntType.width, IntType.signed, IntType.number] at hvalue hlt ⊢ <;> omega

/-- An integer keeps its width and its value exactly if it is not a negative number of less
than four bytes, and, with eight bytes, neither negative nor above the low 32 bits. -/
theorem numeric_spelled_iff (f : NumericField) : f.Spelled ↔ f.Visible :=
  f.spelled_iff_uinteger.trans f.uinteger_eq_iff_visible

end NumericField

/-- A signal of -48 dBm in one byte. -/
def ssiSignal : NumericField where
  kind := .int8
  bytes := [0xd0]
  info := { type := .int8, length := 1, value := 0xffffffd0 }
  length_bytes := rfl
  type_eq := rfl
  length_eq := rfl
  value_eq := by decide

/-- It is written with four bytes. -/
theorem ssiSignal_four_bytes :
    Packet.getNodeFieldValue (some ssiSignal.info) = .ok (ascii "%xffffffd0", true) ∧
      ¬ ssiSignal.Spelled := by
  refine ⟨by decide, ?_⟩
  rw [NumericField.spelled_iff_uinteger]
  decide

end Stress

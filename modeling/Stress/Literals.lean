import Stress.Scanner
import Stress.Denotation
import Stress.Log
import Mathlib.Data.Nat.Digits.Defs

/-!
# Numeric literals

What the leaves of binary and hexadecimal tokens send, against the octets that the
notation denotes.

A hexadecimal leaf drops the prefix and cuts the rest into pairs of characters from
the left, the dots and the dash included.  A value with an odd number of digits and a
dot behind a value with an even number of them shift the pairs.  A binary leaf
has no conversion of its own (`State::setAbnfBin` has an empty body) and is sent as it
is written.  `numerals_denote_iff` says for which tokens the octets come out.
-/

namespace Stress

open RegularExpression

/-! ## The notation -/

/-- A numeric literal without its prefix: values joined by dots, or a range. -/
inductive Numval where
  | values (vs : List Bytes)
  | range (lo hi : Bytes)
deriving DecidableEq, Repr

namespace Numval

/-- The digit strings of a literal. -/
def parts : Numval → List Bytes
  | values vs => vs
  | range lo hi => [lo, hi]

def text : Numval → Bytes
  | values vs => [46].intercalate vs
  | range lo hi => [45].intercalate [lo, hi]

/-- A literal of digits of one class. -/
structure WellFormed (isDig : UInt8 → Bool) (n : Numval) : Prop where
  ne_nil : n.parts ≠ []
  digits : ∀ v ∈ n.parts, v ≠ [] ∧ ∀ c ∈ v, isDig c = true

end Numval

/-- The literal that a token writes. -/
def numeral (token : Bytes) : Numval :=
  match (token.drop 2).splitOn 45 with
  | [lo, hi] => .range lo hi
  | _ => .values ((token.drop 2).splitOn 46)

/-- The number that digits of `bits` bits each write. -/
def valueOf (bits : Nat) (ds : Bytes) : Nat :=
  Nat.ofDigits (2 ^ bits) (ds.map fun d => (hexDigit? d).getD 0).reverse

/-- The last `n` octets of a number, most significant first. -/
def octetsOf : Nat → Nat → Bytes
  | 0, _ => []
  | n + 1, v => (v / 256 ^ n).toUInt8 :: octetsOf n (v % 256 ^ n)

/-- The digits of a value written as octets, as many as they need. -/
def octets (bits : Nat) (ds : Bytes) : Bytes :=
  octetsOf ((bits * ds.length + 7) / 8) (valueOf bits ds)

/-- Whether a literal denotes the octets `b`.  One with a character that is no digit
denotes nothing. -/
def Numval.Denotes (bits : Nat) (n : Numval) (b : Bytes) : Prop :=
  (∀ v ∈ n.parts, ∀ c ∈ v, isHexDigit c = true) ∧
    match n with
    | .values vs => b = vs.flatMap (octets bits)
    | .range lo hi => ∃ c : UInt8, b = [c] ∧ valueOf bits lo ≤ c.toNat ∧ c.toNat ≤ valueOf bits hi

/-- Whether pairs of characters counted from the left are the octets of the values:
a value with an odd number of digits has zeros in front of the last, and behind one
with an even number all values have an odd number and begin with a zero. -/
def pairsUp : List Bytes → Bool
  | [] => true
  | v :: vs =>
      if v.length % 2 = 1 then v.dropLast.all (· == 48) && pairsUp vs
      else vs.all fun u => u.length % 2 == 1 && u.head? == some 48

/-- The literals that a hexadecimal leaf sends as they are meant. -/
def Numval.PairsUp : Numval → Prop
  | .values vs => (∀ v ∈ vs, ∀ c ∈ v, isHexDigit c = true) ∧ pairsUp vs = true
  | .range _ _ => False

/-- What the leaf of a token sends. -/
def Literal.sends (id : Nat) (l : Literal) : Bytes := (leafState l.kind id l.name).getStringToSend

/-! ## Tokens -/

theorem intercalate_cons (c : UInt8) (v : Bytes) (vs : List Bytes) :
    [c].intercalate (v :: vs) = v ++ vs.flatMap (c :: ·) := by
  induction vs generalizing v with
  | nil => simp [List.intercalate]
  | cons u us ih =>
      rw [List.flatMap_cons, List.cons_append, ← ih u]
      simp [List.intercalate]

theorem mem_intercalate {c x : UInt8} {vs : List Bytes} (h : x ∈ [c].intercalate vs) :
    x = c ∨ ∃ v ∈ vs, x ∈ v := by
  cases vs with
  | nil => cases h
  | cons v us =>
      rw [intercalate_cons, List.mem_append, List.mem_flatMap] at h
      obtain hv | ⟨u, hu, hmem⟩ := h
      · exact .inr ⟨v, List.mem_cons_self, hv⟩
      · cases List.mem_cons.mp hmem with
        | inl heq => exact .inl heq
        | inr hmem => exact .inr ⟨u, List.mem_cons_of_mem v hu, hmem⟩

section Tokens

variable {isDig : UInt8 → Bool} {lower upper : String} {w : Bytes} {n : Numval}

/-- A literal is read back from its text. -/
theorem numeral_text (hdash : isDig 45 = false) (hdot : isDig 46 = false)
    (hn : n.WellFormed isDig) {p : Bytes} (hp : p.length = 2) : numeral (p ++ n.text) = n := by
  have hnot : ∀ {x : UInt8}, isDig x = false → ∀ v ∈ n.parts, x ∉ v := by
    intro x hx v hv hmem
    rw [(hn.digits v hv).2 x hmem] at hx
    cases hx
  unfold numeral
  rw [List.drop_left' hp]
  cases n with
  | values vs =>
      have hdots : ([46].intercalate vs).splitOn 46 = vs :=
        List.splitOn_intercalate 46 (hnot hdot) hn.ne_nil
      have hone : ([46].intercalate vs).splitOn 45 = [[46].intercalate vs] := by
        rw [List.splitOn_eq_singleton]
        intro hmem
        obtain h | ⟨v, hv, hmem⟩ := mem_intercalate hmem
        · cases h
        · exact hnot hdash v hv hmem
      rw [Numval.text, hone]
      simp only [hdots]
  | range lo hi =>
      have hsplit : ([45].intercalate [lo, hi]).splitOn 45 = [lo, hi] :=
        List.splitOn_intercalate 45 (hnot hdash) hn.ne_nil
      rw [Numval.text, hsplit]

/-- Every token is a prefix and the text of a literal. -/
theorem of_mem_numval (h : w ∈ (numval lower upper isDig).matches') :
    ∃ p n, (p = ascii lower ∨ p = ascii upper) ∧ n.WellFormed isDig ∧ w = p ++ Numval.text n := by
  rw [numval, mem_mul] at h
  obtain ⟨p, hp, _, hbody, rfl⟩ := h
  rw [mem_add, mem_str, mem_str] at hp
  rw [mem_mul] at hbody
  obtain ⟨v, hv, _, hrest, rfl⟩ := hbody
  rw [mem_many1_cls] at hv
  rw [mem_opt, mem_add] at hrest
  obtain rfl | hdots | hdash := hrest
  · refine ⟨p, .values [v], hp, ⟨nofun, ?_⟩, ?_⟩
    · exact List.forall_mem_singleton.mpr hv
    · rw [Numval.text, intercalate_cons]
      rfl
  · obtain ⟨ws, _, rfl, hws⟩ := mem_many1.mp hdots
    have hus : ∀ x ∈ ws, ∃ u, (u ≠ [] ∧ ∀ c ∈ u, isDig c = true) ∧ x = 46 :: u := by
      intro x hx
      obtain ⟨_, hd, u, hu, rfl⟩ := mem_mul.mp (hws x hx)
      rw [mem_str] at hd
      subst hd
      exact ⟨u, mem_many1_cls.mp hu, rfl⟩
    refine ⟨p, .values (v :: ws.map List.tail), hp, ⟨nofun, ?_⟩, ?_⟩
    · refine List.forall_mem_cons.mpr ⟨hv, fun u hu => ?_⟩
      obtain ⟨x, hx, rfl⟩ := List.mem_map.mp hu
      obtain ⟨u, hdigits, rfl⟩ := hus x hx
      exact hdigits
    · rw [Numval.text, intercalate_cons, List.flatMap_map, List.flatMap_def,
        List.map_congr_left (g := id), List.map_id]
      intro x hx
      obtain ⟨u, hu, rfl⟩ := hus x hx
      rfl
  · rw [mem_mul] at hdash
    obtain ⟨_, hd, u, hu, rfl⟩ := hdash
    rw [mem_str] at hd
    rw [mem_many1_cls] at hu
    subst hd
    refine ⟨p, .range v u, hp, ⟨nofun, ?_⟩, ?_⟩
    · exact List.forall_mem_cons.mpr ⟨hv, List.forall_mem_singleton.mpr hu⟩
    · rw [Numval.text, intercalate_cons]
      simp [ascii]

end Tokens

/-! ## Octets -/

theorem length_octetsOf (n v : Nat) : (octetsOf n v).length = n := by
  induction n generalizing v with
  | zero => rfl
  | succ n ih => rw [octetsOf, List.length_cons, ih]

theorem length_octets (bits : Nat) (ds : Bytes) :
    (octets bits ds).length = (bits * ds.length + 7) / 8 := length_octetsOf _ _

theorem hexDigit?_lt (c : UInt8) : (hexDigit? c).getD 0 < 16 := by
  unfold hexDigit?
  simp only [Bool.and_eq_true, decide_eq_true_eq, UInt8.le_iff_toNat_le]
  split
  · next h =>
      have := h.2
      simp only [UInt8.reduceToNat, Option.getD_some] at *
      omega
  · split
    · next h =>
        have := h.2
        simp only [UInt8.reduceToNat, Option.getD_some] at *
        omega
    · split
      · next h =>
          have := h.2
          simp only [UInt8.reduceToNat, Option.getD_some] at *
          omega
      · exact Nat.zero_lt_succ 15

/-- Only the character `0` has the value zero. -/
theorem eq_zero_of_hexDigit? {c : UInt8} (hc : isHexDigit c = true)
    (h : (hexDigit? c).getD 0 = 0) : c = 48 := by
  unfold isHexDigit hexDigit? at hc
  unfold hexDigit? at h
  rw [← UInt8.toNat_inj]
  simp only [Bool.and_eq_true, decide_eq_true_eq, UInt8.le_iff_toNat_le, UInt8.reduceToNat] at *
  split at h
  · rw [Option.getD_some] at h
    omega
  · split at h
    · rw [Option.getD_some] at h
      omega
    · split at h
      · rw [Option.getD_some] at h
        omega
      · rw [if_neg ‹_›, if_neg ‹_›, if_neg ‹_›] at hc
        cases hc

theorem valueOf_cons (bits : Nat) (c : UInt8) (ds : Bytes) : valueOf bits (c :: ds) =
    valueOf bits ds + (2 ^ bits) ^ ds.length * (hexDigit? c).getD 0 := by
  unfold valueOf
  rw [List.map_cons, List.reverse_cons, Nat.ofDigits_append, Nat.ofDigits_singleton,
    List.length_reverse, List.length_map]

theorem valueOf_lt (ds : Bytes) : valueOf 4 ds < 16 ^ ds.length := by
  have hlt : ∀ x ∈ (ds.map fun d => (hexDigit? d).getD 0).reverse, x < 2 ^ 4 := by
    intro x hx
    rw [List.mem_reverse, List.mem_map] at hx
    obtain ⟨d, _, rfl⟩ := hx
    exact hexDigit?_lt d
  have h := Nat.ofDigits_lt_base_pow_length (by decide) hlt
  rwa [List.length_reverse, List.length_map] at h

/-- Pairs of digits are the octets of an even number of digits. -/
theorem octetsOf_valueOf : ∀ ds : Bytes, ds.length % 2 = 0 →
    octetsOf (ds.length / 2) (valueOf 4 ds) = hexText ds
  | [], _ => rfl
  | [_], h => by cases h
  | c :: d :: ds, h => by
      have heven : ds.length % 2 = 0 := by
        rw [List.length_cons, List.length_cons] at h
        omega
      obtain ⟨n, hn⟩ : ∃ n, ds.length = 2 * n := ⟨ds.length / 2, by omega⟩
      have hlen : (c :: d :: ds).length / 2 = n + 1 := by
        rw [List.length_cons, List.length_cons]
        omega
      have hpow : 16 ^ ds.length = 256 ^ n := by
        rw [hn, Nat.pow_mul]
      have hrest : valueOf 4 ds < 256 ^ n := hpow ▸ valueOf_lt ds
      have hvalue : valueOf 4 (c :: d :: ds) =
          valueOf 4 ds + 256 ^ n * (16 * (hexDigit? c).getD 0 + (hexDigit? d).getD 0) := by
        have hcons : ∀ c ds, valueOf 4 (c :: ds) =
            valueOf 4 ds + 16 ^ ds.length * (hexDigit? c).getD 0 := valueOf_cons 4
        rw [hcons, hcons, List.length_cons, pow_succ, hpow]
        ring
      have ih := octetsOf_valueOf ds heven
      rw [show ds.length / 2 = n by omega] at ih
      rw [hlen, hvalue, octetsOf, Nat.add_mul_div_left _ _ (by positivity),
        Nat.add_mul_mod_self_left,
        Nat.div_eq_of_lt hrest, Nat.mod_eq_of_lt hrest, Nat.zero_add, ih, hexText]

theorem octets_even {ds : Bytes} (h : ds.length % 2 = 0) : octets 4 ds = hexText ds := by
  rw [octets, ← octetsOf_valueOf ds h]
  congr 1
  omega

/-- A digit is missing in front of an odd number of them. -/
theorem octets_odd {ds : Bytes} (h : ds.length % 2 = 1) : octets 4 ds = hexText (48 :: ds) := by
  have heven : (48 :: ds : Bytes).length % 2 = 0 := by
    rw [List.length_cons]
    omega
  have hzero : (hexDigit? 48).getD 0 = 0 := rfl
  rw [octets, ← octetsOf_valueOf _ heven, valueOf_cons, hzero, Nat.mul_zero, Nat.add_zero]
  congr 1
  rw [List.length_cons]
  omega

/-! ## Pairs of characters -/

theorem hexByte_dot (d : UInt8) : hexByte [46, d] = 0 := rfl

theorem hexByte_digit {c : UInt8} (hc : isHexDigit c = true) :
    hexByte [c] = ((hexDigit? c).getD 0).toUInt8 := by
  obtain ⟨hspace, _, _⟩ := not_isSpace_of_isHexDigit hc
  rw [hexByte, List.dropWhile_cons, hspace]
  rfl

/-- A dot ends the digits of a pair. -/
theorem hexByte_digit_dot {c : UInt8} (hc : isHexDigit c = true) :
    hexByte [c, 46] = hexByte [c] := by
  obtain ⟨hspace, hplus, hminus⟩ := not_isSpace_of_isHexDigit hc
  obtain ⟨m, hm⟩ := Option.isSome_iff_exists.mp hc
  have hdot : hexDigit? 46 = none := rfl
  rw [hexByte_digit hc, hexByte, List.dropWhile_cons, hspace]
  simp [hplus, hminus, hm, hdot]

theorem hexBytes_append : ∀ {u : Bytes} (t : Bytes), u.length % 2 = 0 →
    hexBytes (u ++ t) = hexBytes u ++ hexBytes t
  | [], _, _ => rfl
  | [_], _, h => by cases h
  | c :: d :: u, t, h => by
      rw [List.length_cons, List.length_cons] at h
      rw [List.cons_append, List.cons_append, hexBytes, hexBytes, hexBytes_append t (by omega),
        List.cons_append]

/-- A dot that stands in the second place of a pair is skipped. -/
theorem hexBytes_append_dot : ∀ {u : Bytes} (t : Bytes), (∀ c ∈ u, isHexDigit c = true) →
    u.length % 2 = 1 → hexBytes (u ++ 46 :: t) = hexBytes u ++ hexBytes t
  | [], _, _, h => by cases h
  | [c], t, hu, _ => by
      have hone : hexBytes [c] = [hexByte [c]] := by rw [hexBytes]
      rw [List.singleton_append, hone, hexBytes, hexByte_digit_dot (hu c List.mem_cons_self)]
      rfl
  | c :: d :: u, t, hu, h => by
      rw [List.length_cons, List.length_cons] at h
      rw [List.forall_mem_cons, List.forall_mem_cons] at hu
      rw [List.cons_append, List.cons_append, hexBytes, hexBytes,
        hexBytes_append_dot t hu.2.2 (by omega), List.cons_append]

theorem toUInt8_inj {m n : Nat} (hm : m < 256) (hn : n < 256) : m.toUInt8 = n.toUInt8 ↔ m = n := by
  rw [← UInt8.toNat_inj, toNat_toUInt8_of_lt hm, toNat_toUInt8_of_lt hn]

/-- An odd number of digits is cut as it is meant if and only if only the last of them
is not zero. -/
theorem hexBytes_odd_iff : ∀ {v : Bytes}, (∀ c ∈ v, isHexDigit c = true) → v.length % 2 = 1 →
    (hexBytes v = hexText (48 :: v) ↔ v.dropLast.all (· == 48) = true)
  | [], _, h => by cases h
  | [c], hv, _ => by
      rw [hexBytes, hexText, hexByte_digit (hv c List.mem_cons_self)]
      exact ⟨fun _ => rfl, fun _ => by rw [show (hexDigit? 48).getD 0 = 0 from rfl]; simp [hexText]⟩
  | c :: d :: v, hv, h => by
      rw [List.length_cons, List.length_cons] at h
      rw [List.forall_mem_cons, List.forall_mem_cons] at hv
      obtain ⟨hc, hd, hv⟩ := hv
      have ih := hexBytes_odd_iff hv (by omega)
      obtain ⟨e, u, rfl⟩ := List.exists_cons_of_ne_nil (l := v) (by rintro rfl; cases h)
      have hclt := hexDigit?_lt c
      have hdlt := hexDigit?_lt d
      have hzero : (hexDigit? 48).getD 0 = 0 := rfl
      have hlast : (c :: d :: e :: u : Bytes).dropLast = c :: d :: (e :: u).dropLast := rfl
      rw [hlast, List.all_cons, List.all_cons, Bool.and_eq_true, Bool.and_eq_true, beq_iff_eq,
        beq_iff_eq, ← ih, hexBytes, hexByte_digits hc hd, hexText, hexText, hexText,
        List.cons.injEq, hzero]
      constructor
      · rintro ⟨hhead, htail⟩
        rw [toUInt8_inj (by omega) (by omega)] at hhead
        have hd0 : d = 48 := eq_zero_of_hexDigit? hd (by omega)
        subst hd0
        exact ⟨eq_zero_of_hexDigit? hc (by omega), rfl, htail⟩
      · rintro ⟨rfl, rfl, htail⟩
        exact ⟨rfl, htail⟩

/-- The octets of values are at most half of the characters that dots and values have. -/
theorem length_octets_le (bits : Nat) (hbits : bits ≤ 4) (us : List Bytes) :
    2 * (us.flatMap (octets bits)).length ≤ (us.flatMap (46 :: ·)).length := by
  induction us with
  | nil => exact Nat.le_refl 0
  | cons u us ih =>
      have hle : bits * u.length ≤ 4 * u.length := Nat.mul_le_mul_right u.length hbits
      rw [List.flatMap_cons, List.flatMap_cons, List.length_append, List.length_append,
        length_octets, List.length_cons]
      omega

/-- Values behind a dot in the first place of a pair. -/
theorem shifted_iff {us : List Bytes} (hne : ∀ u ∈ us, u ≠ [])
    (hus : ∀ u ∈ us, ∀ c ∈ u, isHexDigit c = true) :
    hexBytes (us.flatMap (46 :: ·)) = us.flatMap (octets 4) ↔
      (us.all fun u => u.length % 2 == 1 && u.head? == some 48) = true := by
  induction us with
  | nil => exact ⟨fun _ => rfl, fun _ => rfl⟩
  | cons u us ih =>
      rw [List.forall_mem_cons] at hne hus
      have ih := ih hne.2 hus.2
      obtain ⟨d, v, rfl⟩ := List.exists_cons_of_ne_nil hne.1
      rw [List.forall_mem_cons] at hus
      obtain ⟨⟨hd, hv⟩, _⟩ := hus
      rw [List.flatMap_cons, List.flatMap_cons, List.all_cons, Bool.and_eq_true,
        Bool.and_eq_true, ← ih, List.head?_cons, beq_iff_eq, beq_iff_eq, Option.some_inj]
      obtain hodd | heven := Nat.mod_two_eq_zero_or_one v.length
      · have hlen : (d :: v).length % 2 = 1 := by
          rw [List.length_cons]
          omega
        have hdlt := hexDigit?_lt d
        have hzero : (hexDigit? 48).getD 0 = 0 := rfl
        rw [octets_odd hlen, List.cons_append, List.cons_append, hexBytes, hexByte_dot,
          hexBytes_append _ hodd, hexText, List.cons_append, List.cons.injEq,
          hexBytes_eq_hexText v hv hodd, List.append_cancel_left_eq, hzero]
        constructor
        · rintro ⟨hhead, hrest⟩
          have hhead := (toUInt8_inj (m := 0) (by omega) (by omega)).mp hhead
          exact ⟨⟨hlen, eq_zero_of_hexDigit? hd (by omega)⟩, hrest⟩
        · rintro ⟨⟨_, rfl⟩, hrest⟩
          exact ⟨rfl, hrest⟩
      · constructor
        · intro h
          have hle := length_octets_le 4 (Nat.le_refl 4) us
          have hlen := congrArg List.length h
          rw [length_hexBytes, List.length_append, List.length_append, length_octets,
            List.length_cons, List.length_cons] at hlen
          omega
        · rintro ⟨⟨hlen, _⟩, _⟩
          rw [List.length_cons] at hlen
          omega

theorem pairsUp_iff {vs : List Bytes} (hne : ∀ v ∈ vs, v ≠ [])
    (hvs : ∀ v ∈ vs, ∀ c ∈ v, isHexDigit c = true) :
    hexBytes ([46].intercalate vs) = vs.flatMap (octets 4) ↔ pairsUp vs = true := by
  induction vs with
  | nil => exact ⟨fun _ => rfl, fun _ => rfl⟩
  | cons v vs ih =>
      rw [List.forall_mem_cons] at hne hvs
      have ih := ih hne.2 hvs.2
      rw [pairsUp, intercalate_cons, List.flatMap_cons]
      obtain heven | hodd := Nat.mod_two_eq_zero_or_one v.length
      · rw [if_neg (by omega), hexBytes_append _ heven, octets_even heven,
          hexBytes_eq_hexText v hvs.1 heven, List.append_cancel_left_eq]
        exact shifted_iff hne.2 hvs.2
      · rw [if_pos hodd, Bool.and_eq_true, ← ih, ← hexBytes_odd_iff hvs.1 hodd, octets_odd hodd]
        have hlen : (hexBytes v).length = (hexText (48 :: v)).length := by
          rw [← octets_odd hodd, length_hexBytes, length_octets]
          omega
        cases vs with
        | nil =>
            rw [List.flatMap_nil, List.flatMap_nil, List.append_nil, List.append_nil]
            exact (and_iff_left rfl).symm
        | cons u us =>
            rw [List.flatMap_cons, List.cons_append, ← intercalate_cons,
              hexBytes_append_dot _ hvs.1 hodd]
            exact ⟨fun h => List.append_inj h hlen, fun h => congrArg₂ _ h.1 h.2⟩

/-! ## What the leaves send -/

/-- A hexadecimal leaf drops its prefix, in either case of the letter. -/
theorem sends_hexLeaf (id : Nat) {p body : Bytes} (hp : p = ascii "%x" ∨ p = ascii "%X")
    (hbody : body.head? ≠ some 37) :
    (leafState .hexLeaf id (p ++ body)).getStringToSend = hexBytes body := by
  rw [State.getStringToSend_eq]
  change (StateData.setAbnfHex _ _).raw = _
  unfold StateData.setAbnfHex
  cases hp with
  | inl hlower =>
      subst hlower
      have hfind : find [37, 120] (ascii "%x" ++ body) = some 0 := by
        simp [ascii, find, List.isPrefixOf]
      have hdrop : (ascii "%x" ++ body).drop 2 = body := rfl
      rw [if_pos hfind, hdrop, StateData.setStringValue, if_neg hbody]
      rfl
  | inr hupper =>
      subst hupper
      have hfind : find [37, 120] (ascii "%X" ++ body) ≠ some 0 := by
        simp [ascii, find, List.isPrefixOf]
      have hhead : (ascii "%X" ++ body).head? = some 37 := rfl
      have hdrop : (ascii "%X" ++ body).drop 2 = body := rfl
      rw [if_neg hfind, StateData.setStringValue, if_pos hhead, hdrop]
      rfl

/-- The text of a literal begins with a digit. -/
theorem Numval.WellFormed.head?_text {isDig : UInt8 → Bool} {n : Numval} (h : n.WellFormed isDig) :
    ∃ c, isDig c = true ∧ n.text.head? = some c := by
  have hfirst : ∀ {v : Bytes} {t : Bytes}, (v ≠ [] ∧ ∀ c ∈ v, isDig c = true) →
      ∃ c, isDig c = true ∧ (v ++ t).head? = some c := by
    rintro v t ⟨hne, hv⟩
    obtain ⟨c, u, rfl⟩ := List.exists_cons_of_ne_nil hne
    exact ⟨c, hv c List.mem_cons_self, rfl⟩
  cases n with
  | values vs =>
      obtain ⟨v, us, rfl⟩ := List.exists_cons_of_ne_nil h.ne_nil
      rw [Numval.text, intercalate_cons]
      exact hfirst (h.digits v List.mem_cons_self)
  | range lo hi =>
      rw [Numval.text, intercalate_cons]
      exact hfirst (h.digits lo List.mem_cons_self)

theorem sends_hexval (id : Nat) (t : Lexeme hexval) :
    (numeral t.text).WellFormed isHexdig ∧
      (Literal.hexval t).sends id = hexBytes (numeral t.text).text := by
  obtain ⟨p, n, hp, hn, htext⟩ := of_mem_numval t.mem
  have hlen : p.length = 2 := by
    obtain rfl | rfl := hp <;> rfl
  have hnumeral : numeral t.text = n := by
    rw [htext, numeral_text rfl rfl hn hlen]
  obtain ⟨c, hc, hhead⟩ := hn.head?_text
  rw [hnumeral]
  refine ⟨hn, ?_⟩
  have hname : (Literal.hexval t).name = p ++ n.text := htext
  rw [Literal.sends, hname]
  refine sends_hexLeaf id hp ?_
  rw [hhead]
  intro h
  cases h
  cases hc

/-- A binary leaf sends its token. -/
theorem sends_binval (id : Nat) (t : Lexeme binval) :
    (numeral t.text).WellFormed isBit ∧
      ∃ p : Bytes, p.length = 2 ∧ (Literal.binval t).sends id = p ++ (numeral t.text).text := by
  obtain ⟨p, n, hp, hn, htext⟩ := of_mem_numval t.mem
  have hlen : p.length = 2 := by
    obtain rfl | rfl := hp <;> rfl
  have hnumeral : numeral t.text = n := by
    rw [htext, numeral_text rfl rfl hn hlen]
  rw [hnumeral]
  refine ⟨hn, p, hlen, ?_⟩
  have hbit : ∀ v ∈ n.parts, ∀ c ∈ v, c ∈ ascii "01.-" := by
    intro v hv c hc
    have hb := (hn.digits v hv).2 c hc
    rw [isBit, Bool.or_eq_true, beq_iff_eq, beq_iff_eq] at hb
    obtain rfl | rfl := hb <;> decide
  have hchars : ∀ c ∈ n.text, c ∈ ascii "01.-" := by
    intro c hc
    cases n with
    | values vs =>
        obtain rfl | ⟨v, hv, hmem⟩ := mem_intercalate hc
        · decide
        · exact hbit v hv c hmem
    | range lo hi =>
        obtain rfl | ⟨v, hv, hmem⟩ := mem_intercalate hc
        · decide
        · exact hbit v hv c hmem
  have hplain : PlainLeaf (.leaf .binLeaf id t.text) := by
    rw [htext]
    obtain rfl | rfl := hp
    · exact ⟨98, n.text, rfl, .inl rfl, hchars⟩
    · exact ⟨66, n.text, rfl, .inr rfl, hchars⟩
  rw [← htext, Literal.sends, State.getStringToSend_eq]
  exact (binStringToSend_of_plainLeaf hplain rfl).1

/-! ## The octets of a token -/

/-- What a literal denotes is shorter than a token of it. -/
theorem Numval.Denotes.length_le {bits : Nat} (hbits : bits ≤ 4) {n : Numval} {b : Bytes}
    (h : n.Denotes bits b) : b.length ≤ n.text.length + 1 := by
  cases n with
  | values vs =>
      have hle := length_octets_le bits hbits vs
      rw [h.2, Numval.text]
      cases vs with
      | nil => exact Nat.zero_le _
      | cons v us =>
          have hdots : (v :: us).flatMap (46 :: ·) = 46 :: [46].intercalate (v :: us) := by
            rw [intercalate_cons]
            rfl
          rw [hdots, List.length_cons] at hle
          omega
  | range lo hi =>
      obtain ⟨_, c, rfl, _⟩ := h
      exact Nat.le_add_left 1 _

/-- A hexadecimal token is sent as the octets it denotes if and only if its pairs of
characters are these octets, and a binary one never. -/
theorem numerals_denote_iff (id : Nat) :
    (∀ t : Lexeme hexval,
      (numeral t.text).Denotes 4 ((Literal.hexval t).sends id) ↔ (numeral t.text).PairsUp) ∧
    ∀ t : Lexeme binval, ¬ (numeral t.text).Denotes 1 ((Literal.binval t).sends id) := by
  refine ⟨fun t => ?_, fun t => ?_⟩
  · obtain ⟨hn, hsends⟩ := sends_hexval id t
    rw [hsends]
    generalize numeral t.text = n at hn
    cases n with
    | values vs =>
        refine and_congr_right fun hhex => ?_
        exact pairsUp_iff (fun v hv => (hn.digits v hv).1) hhex
    | range lo hi =>
        refine ⟨?_, False.elim⟩
        rintro ⟨_, c, hb, _⟩
        obtain ⟨a, lo, rfl⟩ := List.exists_cons_of_ne_nil (hn.digits lo List.mem_cons_self).1
        obtain ⟨d, hi, rfl⟩ := List.exists_cons_of_ne_nil
          (hn.digits hi (List.mem_cons_of_mem _ List.mem_cons_self)).1
        have hlen := congrArg List.length hb
        rw [length_hexBytes, Numval.text, intercalate_cons] at hlen
        simp only [List.flatMap_cons, List.flatMap_nil, List.length_append, List.length_cons,
          List.length_nil] at hlen
        omega
  · intro h
    obtain ⟨_, p, hp, hsends⟩ := sends_binval id t
    have hle := h.length_le (by decide)
    rw [hsends, List.length_append, hp] at hle
    omega

/-- The token `%x41-5A`, which is the first half of `ALPHA`. -/
def upperLetters : Lexeme hexval where
  text := ascii "%x41-5A"
  mem := (rmatch_iff_matches' _ _).mp (by decide)

/-- A range is sent as three octets. -/
theorem range_is_not_one_octet :
    ¬ ∀ (id : Nat) (t : Lexeme hexval),
      (numeral t.text).Denotes 4 ((Literal.hexval t).sends id) := by
  intro hall
  have hsent : ((Literal.hexval upperLetters).sends 0).length = 3 := by decide
  have hrange : numeral upperLetters.text = .range (ascii "41") (ascii "5A") := by decide
  have hden := hall 0 upperLetters
  rw [hrange] at hden
  obtain ⟨_, c, hone, _⟩ := hden
  rw [hone] at hsent
  cases hsent

end Stress

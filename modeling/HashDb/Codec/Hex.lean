import HashDb.Basic
import Mathlib.Tactic.IntervalCases

/-!
# The hex codec of `lmdb_helper`

`binary_hash_to_hex` (src/src/lmdb_helper.h) and `to_hex` (src/src_libhashdb/to_hex.hpp) write
each byte as two lower-case digits, high half first, through the same `tohex` table.
`hex_to_binary_hash` reads the digits back in pairs, of either case; on an odd length or on any
other character it prints a line to `std::cout` and returns `""`.

* `binaryHashToHex_eq`: the encoder writes `hexChar` of the two halves of every byte, and never
  reaches the `assert(0)` of `tohex`;
* `hexPairs_hexBytes`: the decoder reads those digits back;
* `hexPairs_ok_iff` and `binaryHashToHex_hexPairs`: the decoder accepts exactly the strings of
  digits, and writing its bytes out again lowers the case of the digits.
-/

namespace HashDb
namespace Codec

/-! ## The encoder -/

/-- `tohex(c)`: the lower-case digit of a value below 16; any other value prints "char <c>" and
reaches `assert(0)`. to_hex.hpp has the same table. -/
def tohex (c : UInt8) : Except Fault UInt8 :=
  match c.toNat with
  | 0 => .ok '0'.toUInt8
  | 1 => .ok '1'.toUInt8
  | 2 => .ok '2'.toUInt8
  | 3 => .ok '3'.toUInt8
  | 4 => .ok '4'.toUInt8
  | 5 => .ok '5'.toUInt8
  | 6 => .ok '6'.toUInt8
  | 7 => .ok '7'.toUInt8
  | 8 => .ok '8'.toUInt8
  | 9 => .ok '9'.toUInt8
  | 10 => .ok 'a'.toUInt8
  | 11 => .ok 'b'.toUInt8
  | 12 => .ok 'c'.toUInt8
  | 13 => .ok 'd'.toUInt8
  | 14 => .ok 'e'.toUInt8
  | 15 => .ok 'f'.toUInt8
  | _ => .error .notHexValue

/-- `binary_hash_to_hex(binary_hash)`: `tohex(c>>4)` then `tohex(c&0x0f)` for each byte `c`. -/
def binaryHashToHex : Bytes → Except Fault Bytes
  | [] => .ok []
  | c :: rest => do
    let hi ← tohex (c >>> 4)
    let lo ← tohex (c &&& 0x0f)
    let tail ← binaryHashToHex rest
    .ok (hi :: lo :: tail)

/-- `to_hex(binary_string)` of to_hex.hpp: the loop of `binary_hash_to_hex`, over the same
table. -/
def toHex (binaryString : Bytes) : Except Fault Bytes := binaryHashToHex binaryString

/-! ## The decoder -/

/-- The test `hex_to_binary_hash` makes of each character of a pair, `c0` and `c1` alike: its
digit value, or `none` for a character outside `[0-9a-fA-F]`. -/
def hexValue (c : UInt8) : Option UInt8 :=
  if c ≥ '0'.toUInt8 ∧ c ≤ '9'.toUInt8 then some (c - '0'.toUInt8)
  else if c ≥ 'a'.toUInt8 ∧ c ≤ 'f'.toUInt8 then some (c - 'a'.toUInt8 + 10)
  else if c ≥ 'A'.toUInt8 ∧ c ≤ 'F'.toUInt8 then some (c - 'A'.toUInt8 + 10)
  else none

/-- Why `hex_to_binary_hash` returned `""`. -/
inductive HexComplaint
  /-- An odd number of characters. -/
  | notAligned
  /-- A character outside `[0-9a-fA-F]`. -/
  | unexpectedCharacter
  deriving DecidableEq, Repr

/-- The line printed to `std::cout`, up to the quoted input and `'\n`. -/
def HexComplaint.text : HexComplaint → String
  | .notAligned => "hex input not aligned on even boundary in '"
  | .unexpectedCharacter => "unexpected hex character in '"

/-- The loop of `hex_to_binary_hash` over the pairs `c0 c1` of an even-length string:
`bin[j++] = d0 << 4 | d1`. -/
def hexPairs : Bytes → Except HexComplaint Bytes
  | c0 :: c1 :: rest =>
    match hexValue c0, hexValue c1 with
    | some d0, some d1 => do
      let bin ← hexPairs rest
      .ok ((d0 <<< 4 ||| d1) :: bin)
    | _, _ => .error .unexpectedCharacter
  | _ => .ok []

/-- `hex_to_binary_hash(hex_string)`: the bytes, or the complaint it printed before returning
`""`. -/
def hexToBinaryHash (hexString : Bytes) : Except HexComplaint Bytes :=
  if hexString.length % 2 ≠ 0 then .error .notAligned else hexPairs hexString

/-- The `std::string` `hex_to_binary_hash` returns: `""` after a complaint. -/
def returnedBytes : Except HexComplaint Bytes → Bytes
  | .ok bin => bin
  | .error _ => []

/-! ## What the codec means -/

/-- The digit `tohex` writes for a value below 16. -/
def hexChar (v : Nat) : UInt8 := if v < 10 then (48 + v).toUInt8 else (87 + v).toUInt8

/-- The two digits of each byte, high half first. -/
def hexBytes (b : Bytes) : Bytes :=
  b.flatMap fun c => [hexChar (c.toNat / 16), hexChar (c.toNat % 16)]

/-- A character of the grammar `[0-9a-fA-F]`. -/
def IsHexChar (c : UInt8) : Prop :=
  ('0'.toUInt8 ≤ c ∧ c ≤ '9'.toUInt8) ∨ ('a'.toUInt8 ≤ c ∧ c ≤ 'f'.toUInt8) ∨
    ('A'.toUInt8 ≤ c ∧ c ≤ 'F'.toUInt8)

instance (c : UInt8) : Decidable (IsHexChar c) := inferInstanceAs (Decidable (_ ∨ _))

/-- `A-F` lowered to `a-f`; every other character kept. -/
def lowerHex (c : UInt8) : UInt8 := if 'A'.toUInt8 ≤ c ∧ c ≤ 'F'.toUInt8 then c + 32 else c

/-! ## Bytes and digits -/

/-- The character codes the digit tests compare with. -/
theorem digit_codes : '0'.toUInt8.toNat = 48 ∧ '9'.toUInt8.toNat = 57 ∧ 'a'.toUInt8.toNat = 97 ∧
    'f'.toUInt8.toNat = 102 ∧ 'A'.toUInt8.toNat = 65 ∧ 'F'.toUInt8.toNat = 70 :=
  ⟨rfl, rfl, rfl, rfl, rfl, rfl⟩

theorem tohex_of_lt {c : UInt8} (h : c.toNat < 16) : tohex c = .ok (hexChar c.toNat) := by
  unfold tohex
  generalize c.toNat = n at h ⊢
  interval_cases n <;> rfl

theorem tohex_high (c : UInt8) : tohex (c >>> 4) = .ok (hexChar (c.toNat / 16)) := by
  have h : (c >>> 4).toNat = c.toNat / 16 := by
    simp only [uint8_toNat_shiftRight, Nat.shiftRight_eq_div_pow]; rfl
  have hc := c.toNat_lt_size
  rw [tohex_of_lt (by rw [h]; exact Nat.div_lt_of_lt_mul hc), h]

theorem tohex_low (c : UInt8) : tohex (c &&& 0x0f) = .ok (hexChar (c.toNat % 16)) := by
  have h : (c &&& 0x0f).toNat = c.toNat % 16 := by
    rw [UInt8.and_toNat]; exact Nat.and_pow_two_sub_one_eq_mod _ 4
  rw [tohex_of_lt (by rw [h]; exact Nat.mod_lt _ (by decide)), h]

theorem hexValue_hexChar {v : Nat} (hv : v < 16) : hexValue (hexChar v) = some v.toUInt8 := by
  interval_cases v <;> rfl

/-- The two halves put back together. -/
theorem nibbles_or (c : UInt8) :
    (c.toNat / 16).toUInt8 <<< 4 ||| (c.toNat % 16).toUInt8 = c := by
  have hc : c.toNat < 256 := c.toNat_lt_size
  rw [uint8_eq_iff, uint8_toNat_or, uint8_toNat_shiftLeft, nat_toUInt8_toNat, nat_toUInt8_toNat,
    Nat.shiftLeft_eq, Nat.or_comm, show (4 : UInt8).toNat % 8 = 4 from rfl,
    Nat.mod_eq_of_lt (by omega : c.toNat % 16 < 2 ^ 8),
    Nat.mod_eq_of_lt (by omega : c.toNat / 16 % 2 ^ 8 * 2 ^ 4 < 2 ^ 8),
    or_eq_add_of_lt (by omega : c.toNat % 16 < 2 ^ 4)]
  omega

theorem hexValue_eq_none_iff (c : UInt8) : hexValue c = none ↔ ¬IsHexChar c := by
  unfold hexValue IsHexChar
  split_ifs <;> simp_all

/-- A character has a digit value exactly when it is in the grammar. -/
theorem hexValue_isSome_iff (c : UInt8) : (∃ d, hexValue c = some d) ↔ IsHexChar c := by
  rw [← Option.ne_none_iff_exists', Ne, hexValue_eq_none_iff, not_not]

/-- A digit the decoder reads is a value below 16, which `tohex` writes back in lower case. -/
theorem hexValue_spec {c d : UInt8} (h : hexValue c = some d) :
    d.toNat < 16 ∧ hexChar d.toNat = lowerHex c := by
  have hc : c.toNat < 256 := c.toNat_lt_size
  obtain ⟨c0, c9, ca, cf, cA, cF⟩ := digit_codes
  have hd : d.toNat = c.toNat - if c.toNat ≤ 57 then 48 else if c.toNat ≤ 70 then 55 else 87 := by
    unfold hexValue at h
    simp only [ge_iff_le, uint8_le_iff, c0, c9, ca, cf, cA, cF] at h
    split_ifs at h with h0 h1 h2 <;> cases h
    · rw [UInt8.toNat_sub_of_le _ _ (by rw [uint8_le_iff, c0]; omega), c0, if_pos h0.2]
    · rw [uint8_toNat_add, UInt8.toNat_sub_of_le _ _ (by rw [uint8_le_iff, ca]; omega), ca]
      change (c.toNat - 97 + 10) % 256 = _
      rw [if_neg (by omega), if_neg (by omega)]
      omega
    · rw [uint8_toNat_add, UInt8.toNat_sub_of_le _ _ (by rw [uint8_le_iff, cA]; omega), cA]
      change (c.toNat - 65 + 10) % 256 = _
      rw [if_neg (by omega), if_pos h2.2]
      omega
  have hin := (hexValue_isSome_iff c).1 ⟨d, h⟩
  simp only [IsHexChar, uint8_le_iff, c0, c9, ca, cf, cA, cF] at hin
  rw [uint8_eq_iff, hexChar, lowerHex, hd]
  simp only [uint8_le_iff, cA, cF]
  split_ifs <;> simp only [nat_toUInt8_toNat, uint8_toNat_add,
    show (32 : UInt8).toNat = 32 from rfl] <;> omega

/-! ## The encoder and the decoder -/

theorem binaryHashToHex_eq (b : Bytes) : binaryHashToHex b = .ok (hexBytes b) := by
  induction b with
  | nil => rfl
  | cons c rest ih =>
    simp [binaryHashToHex, tohex_high, tohex_low, ih, hexBytes, bind, Except.bind, pure,
      Except.pure]

theorem length_hexBytes (b : Bytes) : (hexBytes b).length = 2 * b.length := by
  induction b with
  | nil => rfl
  | cons c rest ih => simp [hexBytes] at ih ⊢; omega

theorem hexPairs_hexBytes (b : Bytes) : hexPairs (hexBytes b) = .ok b := by
  induction b with
  | nil => rfl
  | cons c rest ih =>
    have ih' : hexPairs (hexBytes rest) = .ok rest := ih
    simp only [hexBytes, List.flatMap_cons, List.cons_append, List.nil_append] at ih' ⊢
    rw [hexPairs, hexValue_hexChar (Nat.div_lt_of_lt_mul c.toNat_lt_size),
      hexValue_hexChar (Nat.mod_lt _ (by decide)), ih']
    dsimp only
    rw [nibbles_or]
    rfl

/-- The decoder on two characters and the rest: it reads both digits, then the rest. -/
theorem hexPairs_cons_eq_ok {c0 c1 : UInt8} {rest bin : Bytes} :
    hexPairs (c0 :: c1 :: rest) = .ok bin ↔ ∃ d0 d1 bin', hexValue c0 = some d0 ∧
      hexValue c1 = some d1 ∧ hexPairs rest = .ok bin' ∧ bin = (d0 <<< 4 ||| d1) :: bin' := by
  cases hv0 : hexValue c0 <;> cases hv1 : hexValue c1 <;> cases hr : hexPairs rest <;>
    simp [hexPairs, hv0, hv1, hr, bind, Except.bind, pure, Except.pure, eq_comm]

/-- The decoder runs over a string of digits, and only over one. -/
theorem hexPairs_ok_iff :
    ∀ h : Bytes, h.length % 2 = 0 → ((∃ bin, hexPairs h = .ok bin) ↔ ∀ c ∈ h, IsHexChar c)
  | [], _ => by simp [hexPairs]
  | [_], h2 => by simp at h2
  | c0 :: c1 :: rest, h2 => by
    have ih := hexPairs_ok_iff rest (by simp only [List.length_cons] at h2; omega)
    rw [List.forall_mem_cons, List.forall_mem_cons, ← ih, ← hexValue_isSome_iff,
      ← hexValue_isSome_iff]
    simp only [hexPairs_cons_eq_ok]
    constructor
    · rintro ⟨_, d0, d1, bin', hv0, hv1, hr, -⟩
      exact ⟨⟨d0, hv0⟩, ⟨d1, hv1⟩, bin', hr⟩
    · rintro ⟨⟨d0, hv0⟩, ⟨d1, hv1⟩, bin', hr⟩
      exact ⟨_, d0, d1, bin', hv0, hv1, hr, rfl⟩

theorem length_hexPairs :
    ∀ {h bin : Bytes}, hexPairs h = .ok bin → h.length % 2 = 0 → bin.length = h.length / 2
  | [], _, hb, _ => by cases hb; rfl
  | [_], _, _, h2 => by simp at h2
  | c0 :: c1 :: rest, bin, hb, h2 => by
    obtain ⟨d0, d1, bin', -, -, hr, rfl⟩ := hexPairs_cons_eq_ok.1 hb
    have := length_hexPairs hr (by simp only [List.length_cons] at h2; omega)
    simp only [List.length_cons, this]
    omega

/-- Writing out what the decoder read gives its input with the case of the digits lowered. -/
theorem binaryHashToHex_hexPairs :
    ∀ {h bin : Bytes}, hexPairs h = .ok bin → h.length % 2 = 0 →
      binaryHashToHex bin = .ok (h.map lowerHex)
  | [], _, hb, _ => by cases hb; rfl
  | [_], _, _, h2 => by simp at h2
  | c0 :: c1 :: rest, bin, hb, h2 => by
    obtain ⟨d0, d1, bin', hv0, hv1, hr, rfl⟩ := hexPairs_cons_eq_ok.1 hb
    have ih := binaryHashToHex_hexPairs hr (by simp only [List.length_cons] at h2; omega)
    obtain ⟨hd0, hc0⟩ := hexValue_spec hv0
    obtain ⟨hd1, hc1⟩ := hexValue_spec hv1
    have hb : (d0 <<< 4 ||| d1).toNat = d0.toNat * 16 + d1.toNat := by
      rw [uint8_toNat_or, uint8_toNat_shiftLeft, Nat.shiftLeft_eq, Nat.or_comm,
        show (4 : UInt8).toNat % 8 = 4 from rfl, Nat.mod_eq_of_lt (by omega),
        or_eq_add_of_lt (by omega : d1.toNat < 2 ^ 4)]
      omega
    rw [binaryHashToHex_eq] at ih ⊢
    simp only [hexBytes, List.flatMap_cons, List.map_cons, Except.ok.injEq] at ih ⊢
    rw [hb, show (d0.toNat * 16 + d1.toNat) / 16 = d0.toNat by omega,
      show (d0.toNat * 16 + d1.toNat) % 16 = d1.toNat by omega, hc0, hc1, ← ih]
    rfl

/-- The hex codec round-trips and accepts exactly its grammar: `hex_to_binary_hash` reads back
what `binary_hash_to_hex` and `to_hex` write; it returns a nonempty string exactly on nonempty
strings of even length made of `[0-9a-fA-F]`; and writing that string out again gives the
input with `A-F` lowered. -/
theorem hex_codec_roundtrip (b h : Bytes) :
    (∃ e, binaryHashToHex b = .ok e ∧ toHex b = .ok e ∧ hexToBinaryHash e = .ok b) ∧
    (returnedBytes (hexToBinaryHash h) ≠ [] ↔
      h ≠ [] ∧ h.length % 2 = 0 ∧ ∀ c ∈ h, IsHexChar c) ∧
    (h.length % 2 = 0 → (∀ c ∈ h, IsHexChar c) →
      binaryHashToHex (returnedBytes (hexToBinaryHash h)) = .ok (h.map lowerHex)) := by
  refine ⟨⟨hexBytes b, binaryHashToHex_eq b, binaryHashToHex_eq b, ?_⟩, ?_, fun h2 hh => ?_⟩
  · rw [hexToBinaryHash, if_neg (by rw [length_hexBytes]; omega), hexPairs_hexBytes]
  · by_cases h2 : h.length % 2 = 0
    · by_cases hh : ∀ c ∈ h, IsHexChar c
      · obtain ⟨bin, hb⟩ := (hexPairs_ok_iff h h2).2 hh
        have hl := length_hexPairs hb h2
        rw [hexToBinaryHash, if_neg (by omega), hb, returnedBytes, Ne, ← List.length_eq_zero, hl,
          Ne, ← List.length_eq_zero]
        exact ⟨fun hn => ⟨by omega, h2, hh⟩, fun hn => by have := hn.1; omega⟩
      · cases hb : hexPairs h with
        | ok bin => exact absurd ((hexPairs_ok_iff h h2).1 ⟨bin, hb⟩) hh
        | error e => simp [hexToBinaryHash, h2, hb, returnedBytes, hh]
    · simp [hexToBinaryHash, h2, returnedBytes]
  · obtain ⟨bin, hb⟩ := (hexPairs_ok_iff h h2).2 hh
    rw [hexToBinaryHash, if_neg (by omega), hb]
    exact binaryHashToHex_hexPairs hb h2

end Codec
end HashDb

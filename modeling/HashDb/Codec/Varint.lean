import HashDb.Basic
import Mathlib.Data.Nat.Size
import Mathlib.Tactic.IntervalCases

/-!
# The varint codec of `lmdb_helper`

`private_uint64_to_encoding` and `private_encoding_to_uint64` (src/src/lmdb_helper.h) are the
protobuf base-128 varint: seven payload bits per byte, low group first, bit 7 set on every
byte but the last. Both split the 64-bit value into three 32-bit parts, `value`,
`value >> 28` and `value >> 56`; the encoder picks the size by a hand-written binary search
tree and writes the bytes through a fall-through ladder, the decoder reads through an
unrolled ladder of ten rungs.

The model keeps the parts and the ladders. Every fact is argued through `varintBytes`, the
same bytes written in `Nat`:

* `privateUint64ToEncoding_toNat`: the encoder writes `varintBytes v (varintSize v)`;
* `privateEncodingToUint64_varintBytes`: the decoder reads such bytes back, leaving the
  suffix after them untouched;
* the round trip, the length `max 1 ⌈bitlength / 7⌉`, and the pair codec on top.
-/

namespace HashDb
namespace Codec

/-! ## The encoder -/

/-- The size `private_uint64_to_encoding`'s binary search tree picks for the three parts. -/
def encodingSize (part0 part1 part2 : UInt32) : Nat :=
  if part2 = 0 then
    if part1 = 0 then
      if part0 < ((1 : UInt32) <<< 14) then
        if part0 < ((1 : UInt32) <<< 7) then 1 else 2
      else
        if part0 < ((1 : UInt32) <<< 21) then 3 else 4
    else
      if part1 < ((1 : UInt32) <<< 14) then
        if part1 < ((1 : UInt32) <<< 7) then 5 else 6
      else
        if part1 < ((1 : UInt32) <<< 21) then 7 else 8
  else
    if part2 < ((1 : UInt32) <<< 7) then 9 else 10

/-- The ten stores of the fall-through ladder, `target[0]` first, each with bit 7 set. -/
def ladder (part0 part1 part2 : UInt32) : Bytes :=
  [(part0 ||| 0x80).toUInt8, ((part0 >>> 7) ||| 0x80).toUInt8,
    ((part0 >>> 14) ||| 0x80).toUInt8, ((part0 >>> 21) ||| 0x80).toUInt8,
    (part1 ||| 0x80).toUInt8, ((part1 >>> 7) ||| 0x80).toUInt8,
    ((part1 >>> 14) ||| 0x80).toUInt8, ((part1 >>> 21) ||| 0x80).toUInt8,
    (part2 ||| 0x80).toUInt8, ((part2 >>> 7) ||| 0x80).toUInt8]

/-- `private_uint64_to_encoding(value, target)`: the bytes written at `target`. The ladder
enters at `size`, so `target[0 .. size - 1]` are written, and `target[size-1] &= 0x7F`. -/
def privateUint64ToEncoding (value : UInt64) : Bytes :=
  let part0 : UInt32 := value.toUInt32
  let part1 : UInt32 := (value >>> 28).toUInt32
  let part2 : UInt32 := (value >>> 56).toUInt32
  let size := encodingSize part0 part1 part2
  let target := (ladder part0 part1 part2).take size
  target.set (size - 1) (target.getD (size - 1) 0 &&& 0x7F)

/-! ## The same bytes in `Nat` -/

/-- The `k` seven-bit groups of `n`, low group first, with bit 7 set on all but the last. -/
def varintBytes (n k : Nat) : List Nat :=
  (List.range k).map fun j => n / 128 ^ j % 128 + if j + 1 < k then 128 else 0

/-- The number of bytes the varint of `n` takes: `⌈bitlength n / 7⌉`, and at least one. -/
def varintSize (n : Nat) : Nat := max 1 ((n.size + 6) / 7)

@[simp] theorem length_varintBytes (n k : Nat) : (varintBytes n k).length = k := by
  simp [varintBytes]

theorem getElem_varintBytes {n k j : Nat} (h : j < (varintBytes n k).length) :
    (varintBytes n k)[j] = n / 128 ^ j % 128 + if j + 1 < k then 128 else 0 := by
  simp [varintBytes]

/-- `varintSize n` groups hold `n`, and one fewer would not. -/
theorem varintSize_spec (n : Nat) :
    1 ≤ varintSize n ∧ n < 128 ^ varintSize n ∧
      (varintSize n = 1 ∨ 128 ^ (varintSize n - 1) ≤ n) := by
  have hpow : ∀ k, 128 ^ k = 2 ^ (7 * k) := fun k => by rw [Nat.pow_mul]
  refine ⟨le_max_left _ _, ?_, ?_⟩
  · rw [hpow, ← Nat.size_le]
    unfold varintSize; omega
  · by_cases h : n.size ≤ 7
    · left; unfold varintSize; omega
    · right
      rw [hpow, ← Nat.lt_size]
      unfold varintSize; omega

/-- Any `k` with those two bounds is `varintSize n`. -/
theorem varintSize_eq {n k : Nat} (hk : 1 ≤ k) (hlt : n < 128 ^ k)
    (hge : k = 1 ∨ 128 ^ (k - 1) ≤ n) : varintSize n = k := by
  have hpow : ∀ k, 128 ^ k = 2 ^ (7 * k) := fun k => by rw [Nat.pow_mul]
  rw [hpow, ← Nat.size_le] at hlt
  rcases hge with rfl | hge
  · unfold varintSize; omega
  · rw [hpow, ← Nat.lt_size] at hge
    unfold varintSize; omega


/-- The three parts of `value`, in `Nat`. -/
theorem parts_toNat (v : UInt64) :
    v.toUInt32.toNat = v.toNat % 2 ^ 32 ∧ (v >>> 28).toUInt32.toNat = v.toNat / 2 ^ 28 % 2 ^ 32 ∧
      (v >>> 56).toUInt32.toNat = v.toNat / 2 ^ 56 := by
  have hv : v.toNat < 2 ^ 64 := v.toNat_lt_size
  simp only [uint64_toUInt32_toNat, uint64_toNat_shiftRight, UInt64.reduceToNat, Nat.reduceMod,
    Nat.shiftRight_eq_div_pow, true_and]
  omega

theorem encodingSize_eq (v : UInt64) :
    encodingSize v.toUInt32 (v >>> 28).toUInt32 (v >>> 56).toUInt32 = varintSize v.toNat := by
  obtain ⟨h0, h1, h2⟩ := parts_toNat v
  have hv : v.toNat < 2 ^ 64 := v.toNat_lt_size
  have h7 : ((1 : UInt32) <<< 7).toNat = 128 := rfl
  have h14 : ((1 : UInt32) <<< 14).toNat = 16384 := rfl
  have h21 : ((1 : UInt32) <<< 21).toNat = 2097152 := rfl
  unfold encodingSize
  simp only [uint32_eq_zero_iff, uint32_lt_iff, h0, h1, h2, h7, h14, h21]
  split_ifs <;> symm <;> apply varintSize_eq <;>
    simp only [Nat.reducePow, Nat.reduceSub, true_or] at * <;> omega

/-- Store `j` of the ladder carries group `j` of `value` with bit 7 set. -/
theorem ladder_getD (v : UInt64) {j : Nat} (hj : j < 10) :
    ((ladder v.toUInt32 (v >>> 28).toUInt32 (v >>> 56).toUInt32).getD j 0).toNat =
      v.toNat / 128 ^ j % 128 + 128 := by
  obtain ⟨h0, h1, h2⟩ := parts_toNat v
  have hv : v.toNat < 2 ^ 64 := v.toNat_lt_size
  have hor : ∀ x : UInt32, (x ||| 0x80).toUInt8.toNat = x.toNat % 128 + 128 := fun x => by
    simp only [uint32_toUInt8_toNat, uint32_toNat_or, UInt32.reduceToNat, Nat.reducePow,
      or_128_mod_256]
  interval_cases j <;>
    simp only [ladder, List.getD_eq_getElem?_getD, List.getElem?_cons_succ,
      List.getElem?_cons_zero, Option.getD_some, hor, uint32_toNat_shiftRight, h0, h1, h2,
      Nat.reducePow, UInt32.reduceToNat, Nat.reduceMod, Nat.shiftRight_eq_div_pow, pow_one,
      pow_zero, Nat.div_one, add_left_inj] <;>
    omega

theorem varintSize_le_ten (v : UInt64) : varintSize v.toNat ≤ 10 := by
  have := Nat.size_le.2 (show v.toNat < 2 ^ 64 from v.toNat_lt_size)
  unfold varintSize; omega

theorem length_ladder (p0 p1 p2 : UInt32) : (ladder p0 p1 p2).length = 10 := rfl

/-- The encoder writes the `varintSize` groups of `value`. -/
theorem privateUint64ToEncoding_toNat (v : UInt64) :
    (privateUint64ToEncoding v).map UInt8.toNat = varintBytes v.toNat (varintSize v.toNat) := by
  have hk := varintSize_le_ten v
  have hk1 := (varintSize_spec v.toNat).1
  have hL := fun j => ladder_getD v (j := j)
  have hlen := length_ladder v.toUInt32 (v >>> 28).toUInt32 (v >>> 56).toUInt32
  simp only [privateUint64ToEncoding, encodingSize_eq]
  generalize ladder v.toUInt32 (v >>> 28).toUInt32 (v >>> 56).toUInt32 = L at hL hlen ⊢
  generalize varintSize v.toNat = k at hk hk1 ⊢
  have hget : ∀ j < 10, L[j]? = some (L.getD j 0) := fun j hj => by
    simp [List.getElem?_eq_getElem (hlen ▸ hj)]
  rw [List.getD_eq_getElem?_getD, List.getElem?_take_of_lt (by omega : k - 1 < k)]
  apply List.ext_getElem?
  intro j
  simp only [List.getElem?_map, List.getElem?_set, List.getElem?_take, varintBytes]
  by_cases hj : j < k
  · rw [List.getElem?_range hj, hget j (by omega), hget (k - 1) (by omega)]
    have hj' := hL j (by omega)
    by_cases hlast : k - 1 = j
    · subst hlast
      simp only [hlen, List.length_take, if_true, show k - 1 < min k 10 by omega, Option.map_some',
        Option.getD_some, UInt8.and_toNat, show (127 : UInt8).toNat = 127 from rfl, and_127, hj',
        show ¬(k - 1 + 1 < k) by omega, if_false]
      rw [Option.some.injEq]; omega
    · simp only [hlast, if_false, hj, if_true, Option.map_some', hj',
        show j + 1 < k by omega]
  · rw [if_neg (by omega), if_neg hj, List.getElem?_eq_none (by simpa using Nat.le_of_not_lt hj)]
    rfl

/-! ## The decoder -/

/-- Rung `i` of `private_encoding_to_uint64`'s unrolled ladder and the rungs after it.
Rung `i` reads byte `i` into `part(i / 4)` at bit `7 * (i % 4)` (the first rung of a part
assigns it, an `or` into the zero it starts at); a byte without bit 7 ends the read at `done`,
and bit 7 on the tenth byte is "corrupted uint64 protocol buffer". -/
def decodeRungs (i : Nat) (part0 part1 part2 : UInt32) : Bytes → Except Fault (UInt64 × Bytes)
  | [] => .error .readPastEnd
  | byte :: ptr =>
    let b : UInt32 := byte.toUInt32
    let bits := (b &&& 0x7F) <<< (7 * (i % 4)).toUInt32
    let part0 := if i / 4 = 0 then part0 ||| bits else part0
    let part1 := if i / 4 = 1 then part1 ||| bits else part1
    let part2 := if i / 4 = 2 then part2 ||| bits else part2
    if b &&& 0x80 = 0 then
      .ok (part0.toUInt64 ||| (part1.toUInt64 <<< 28) ||| (part2.toUInt64 <<< 56), ptr)
    else if i = 9 then .error .corruptUint64
    else decodeRungs (i + 1) part0 part1 part2 ptr

/-- `private_encoding_to_uint64(p_ptr, value)`: the value read and the bytes after it. -/
def privateEncodingToUint64 (ptr : Bytes) : Except Fault (UInt64 × Bytes) :=
  decodeRungs 0 0 0 0 ptr

/-- The three parts hold the bits `[0, 28)`, `[28, 56)` and `[56, ..)` of `a`. -/
def PartsOf (a : Nat) (part0 part1 part2 : UInt32) : Prop :=
  part0.toNat = a % 2 ^ 28 ∧ part1.toNat = a / 2 ^ 28 % 2 ^ 28 ∧ part2.toNat = a / 2 ^ 56

/-- The low seven bits of a byte, at the bit rung `i` puts them. -/
theorem rungBits_toNat (byte : UInt8) (i : Nat) :
    ((byte.toUInt32 &&& 0x7F) <<< (7 * (i % 4)).toUInt32).toNat =
      byte.toNat % 128 * 2 ^ (7 * (i % 4)) := by
  have hs : 2 ^ (7 * (i % 4)) ≤ 2 ^ 21 := Nat.pow_le_pow_right (by decide) (by omega)
  have hlt : byte.toNat % 128 * 2 ^ (7 * (i % 4)) < 2 ^ 32 :=
    calc byte.toNat % 128 * 2 ^ (7 * (i % 4)) < 128 * 2 ^ 21 :=
          Nat.mul_lt_mul_of_lt_of_le (Nat.mod_lt _ (by decide)) hs (by positivity)
      _ ≤ 2 ^ 32 := by decide
  simp only [uint32_toNat_shiftLeft, UInt32.and_toNat, uint8_toUInt32_toNat,
    show (0x7F : UInt32).toNat = 127 from rfl, and_127, nat_toUInt32_toNat, Nat.shiftLeft_eq]
  rw [Nat.mod_eq_of_lt (by omega : 7 * (i % 4) < 2 ^ 32), Nat.mod_eq_of_lt (by omega : 7 * (i % 4) < 32),
    Nat.mod_eq_of_lt hlt]

/-- An `or` into a part whose bits below the new group are all it holds. -/
theorem or_bits_toNat {p bits : UInt32} {g s : Nat} (hbits : bits.toNat = g * 2 ^ s)
    (hp : p.toNat < 2 ^ s) : (p ||| bits).toNat = p.toNat + g * 2 ^ s := by
  rw [uint32_toNat_or, hbits, or_eq_add_of_lt hp]

/-- One rung adds group `g` at bit `7 * i` to the value the parts hold. -/
theorem partsOf_rung {i a g : Nat} (hi : i < 10) (ha : a < 2 ^ (7 * i)) (hg : g < 128)
    {p0 p1 p2 bits : UInt32} (hp : PartsOf a p0 p1 p2) (hbits : bits.toNat = g * 2 ^ (7 * (i % 4))) :
    PartsOf (a + g * 2 ^ (7 * i)) (if i / 4 = 0 then p0 ||| bits else p0)
      (if i / 4 = 1 then p1 ||| bits else p1) (if i / 4 = 2 then p2 ||| bits else p2) := by
  obtain ⟨h0, h1, h2⟩ := hp
  interval_cases i <;> simp only [PartsOf, Nat.reduceDiv, Nat.reduceMod, Nat.reduceMul,
      Nat.reduceEqDiff, reduceIte] at hbits ⊢
  all_goals first
    | rw [or_bits_toNat (p := p0) hbits (by omega)]; omega
    | rw [or_bits_toNat (p := p1) hbits (by omega)]; omega
    | rw [or_bits_toNat (p := p2) hbits (by omega)]; omega

/-- `done` puts the parts of `a` back together, in 64 bits. -/
theorem partsOf_done {a : Nat} {p0 p1 p2 : UInt32} (hp : PartsOf a p0 p1 p2) :
    (p0.toUInt64 ||| (p1.toUInt64 <<< 28) ||| (p2.toUInt64 <<< 56)).toNat = a % 2 ^ 64 := by
  obtain ⟨h0, h1, h2⟩ := hp
  simp only [uint64_toNat_or, uint64_toNat_shiftLeft, uint32_toUInt64_toNat, Nat.shiftLeft_eq,
    show (28 : UInt64).toNat % 64 = 28 from rfl, show (56 : UInt64).toNat % 64 = 56 from rfl]
  rw [Nat.mod_eq_of_lt (by omega : p1.toNat * 2 ^ 28 < 2 ^ 64), or_eq_add_of_lt (by omega),
    show p2.toNat * 2 ^ 56 % 2 ^ 64 = p2.toNat % 2 ^ 8 * 2 ^ 56 by omega,
    or_eq_add_of_lt (by omega : p0.toNat + p1.toNat * 2 ^ 28 < 2 ^ 56)]
  omega

/-- The decoder's continuation test is bit 7 of the byte. -/
theorem rung_stops_iff (byte : UInt8) : byte.toUInt32 &&& 0x80 = 0 ↔ byte.toNat < 128 := by
  rw [uint32_eq_zero_iff, UInt32.and_toNat, uint8_toUInt32_toNat,
    show (0x80 : UInt32).toNat = 128 from rfl]
  exact and_128_eq_zero (UInt8.toNat_lt_size byte)

/-- The parts after rung `i` has read group `i` of `n`. -/
theorem partsOf_rung_group {n i : Nat} (hi : i < 10) {p0 p1 p2 : UInt32}
    (hp : PartsOf (n % 128 ^ i) p0 p1 p2) (byte : UInt8) (hbyte : byte.toNat % 128 = n / 128 ^ i % 128) :
    PartsOf (n % 128 ^ (i + 1))
      (if i / 4 = 0 then p0 ||| (byte.toUInt32 &&& 0x7F) <<< (7 * (i % 4)).toUInt32 else p0)
      (if i / 4 = 1 then p1 ||| (byte.toUInt32 &&& 0x7F) <<< (7 * (i % 4)).toUInt32 else p1)
      (if i / 4 = 2 then p2 ||| (byte.toUInt32 &&& 0x7F) <<< (7 * (i % 4)).toUInt32 else p2) := by
  have hpow : (128 : Nat) ^ i = 2 ^ (7 * i) := by rw [Nat.pow_mul]
  have e : n % 128 ^ (i + 1) = n % 128 ^ i + n / 128 ^ i % 128 * 2 ^ (7 * i) := by
    rw [Nat.mod_pow_succ, hpow, Nat.mul_comm (2 ^ (7 * i))]
  rw [e]
  exact partsOf_rung hi (hpow ▸ Nat.mod_lt _ (by positivity)) (Nat.mod_lt _ (by decide)) hp
    (by rw [rungBits_toNat, hbyte])

/-- From rung `i` on, the decoder reads the last `d + 1` groups of a varint back, leaving the
bytes after it. -/
theorem decodeRungs_varintBytes (value : UInt64) {k : Nat} (hk : k ≤ 10)
    (hn : value.toNat < 128 ^ k) {bytes : Bytes}
    (hb : bytes.map UInt8.toNat = varintBytes value.toNat k) (s : Bytes) :
    ∀ d i, i + d + 1 = k → ∀ p0 p1 p2, PartsOf (value.toNat % 128 ^ i) p0 p1 p2 →
      decodeRungs i p0 p1 p2 (bytes.drop i ++ s) = .ok (value, s) := by
  have hlen : bytes.length = k := by simpa using congrArg List.length hb
  have hbyte : ∀ j (hj : j < bytes.length),
      bytes[j].toNat = value.toNat / 128 ^ j % 128 + if j + 1 < k then 128 else 0 := by
    intro j hj
    have h := List.getElem_of_eq hb (i := j) (by simpa using hj)
    rw [List.getElem_map] at h
    rw [h, getElem_varintBytes]
  intro d
  induction d with
  | zero =>
    intro i hi p0 p1 p2 hp
    have hik : i < bytes.length := by omega
    have hb_i := hbyte i hik
    rw [if_neg (by omega), Nat.add_zero] at hb_i
    rw [List.drop_eq_getElem_cons hik, List.cons_append, decodeRungs]
    rw [if_pos ((rung_stops_iff _).2 (by rw [hb_i]; omega))]
    congr
    · apply UInt64.toNat.inj
      rw [partsOf_done (partsOf_rung_group (by omega) hp _ (by rw [hb_i]; omega)),
        show i + 1 = k by omega, Nat.mod_eq_of_lt hn]
      exact Nat.mod_eq_of_lt value.toNat_lt_size
    · rw [List.drop_eq_nil_of_le (by omega), List.nil_append]
  | succ d ih =>
    intro i hi p0 p1 p2 hp
    have hik : i < bytes.length := by omega
    have hb_i := hbyte i hik
    rw [if_pos (by omega)] at hb_i
    rw [List.drop_eq_getElem_cons hik, List.cons_append, decodeRungs]
    rw [if_neg (fun h => by have := (rung_stops_iff _).1 h; omega), if_neg (by omega)]
    exact ih (i + 1) (by omega) _ _ _ (partsOf_rung_group (by omega) hp _ (by rw [hb_i]; omega))

/-- The decoder reads back what the encoder wrote, and leaves the bytes after it. -/
theorem privateEncodingToUint64_encoding (value : UInt64) (s : Bytes) :
    privateEncodingToUint64 (privateUint64ToEncoding value ++ s) = .ok (value, s) := by
  have hk := (varintSize_spec value.toNat).1
  simpa using decodeRungs_varintBytes value (varintSize_le_ten value)
    (varintSize_spec value.toNat).2.1 (privateUint64ToEncoding_toNat value) s
    (varintSize value.toNat - 1) 0 (by omega) 0 0 0 (by simp [PartsOf, Nat.mod_one])

/-- The encoding takes `max 1 ⌈bitlength / 7⌉` bytes. -/
theorem length_privateUint64ToEncoding (value : UInt64) :
    (privateUint64ToEncoding value).length = max 1 ((value.toNat.size + 6) / 7) := by
  simpa using congrArg List.length (privateUint64ToEncoding_toNat value)

/-- The first byte of the encoding: the low group, with bit 7 set when more groups follow. -/
theorem privateUint64ToEncoding_cons (v : UInt64) : ∃ b rest, privateUint64ToEncoding v = b :: rest ∧
    b.toNat = v.toNat % 128 + if 1 < varintSize v.toNat then 128 else 0 := by
  have h := privateUint64ToEncoding_toNat v
  obtain ⟨k, hk⟩ := Nat.exists_eq_add_of_le' (varintSize_spec v.toNat).1
  rw [hk, varintBytes, List.range_succ_eq_map] at h
  cases he : privateUint64ToEncoding v with
  | nil => rw [he] at h; simp at h
  | cons b rest =>
    rw [he] at h
    simp only [List.map_cons, List.cons.injEq, pow_zero, Nat.div_one, Nat.zero_add] at h
    exact ⟨b, rest, rfl, by rw [h.1, hk]⟩

/-! ## What the decoder accepts -/

/-- The number base-128 groups spell, low group first, each byte's bit 7 set aside. -/
def groupValue : Bytes → Nat
  | [] => 0
  | b :: rest => b.toNat % 128 + 128 * groupValue rest

/-- The position of the first byte without bit 7, which ends a varint; the length of `ptr` if
there is none. -/
def stopIndex (ptr : Bytes) : Nat := ptr.findIdx (·.toNat < 128)

/-- From rung `i`, holding the value `a` of the groups read so far, the decoder reads on to the
first byte without bit 7, unless that is past rung 9 or past the end of the bytes. -/
theorem decodeRungs_eq : ∀ (ptr : Bytes) {i a : Nat} {p0 p1 p2 : UInt32}, i < 10 →
    a < 2 ^ (7 * i) → PartsOf a p0 p1 p2 →
    decodeRungs i p0 p1 p2 ptr =
      if 10 ≤ i + stopIndex ptr then .error .corruptUint64
      else if stopIndex ptr < ptr.length then
        .ok (((a + groupValue (ptr.take (stopIndex ptr + 1)) * 2 ^ (7 * i)) % 2 ^ 64).toUInt64,
          ptr.drop (stopIndex ptr + 1))
      else .error .readPastEnd
  | [], i, _, _, _, _, hi, _, _ => by
    rw [decodeRungs, stopIndex, List.findIdx_nil, if_neg (show ¬10 ≤ i + 0 by omega),
      if_neg (show ¬0 < ([] : Bytes).length from Nat.lt_irrefl 0)]
  | byte :: rest, i, a, p0, p1, p2, hi, ha, hp => by
    have hg : byte.toNat % 128 < 128 := Nat.mod_lt _ (by decide)
    have hp' := partsOf_rung hi ha hg hp (rungBits_toNat byte i)
    simp only [decodeRungs]
    by_cases hstop : byte.toNat < 128
    · -- the varint's last byte
      have hk : stopIndex (byte :: rest) = 0 := by simp [stopIndex, List.findIdx_cons, hstop]
      rw [if_pos ((rung_stops_iff byte).2 hstop), hk, if_neg (show ¬10 ≤ i + 0 by omega),
        if_pos (show 0 < (byte :: rest).length from Nat.succ_pos _)]
      refine congrArg Except.ok (Prod.ext (UInt64.toNat.inj ?_) rfl)
      rw [partsOf_done hp', nat_toUInt64_toNat]
      simp [groupValue]
    · have hk : stopIndex (byte :: rest) = stopIndex rest + 1 := by
        simp [stopIndex, List.findIdx_cons, hstop]
      rw [if_neg fun h => hstop ((rung_stops_iff byte).1 h), hk]
      by_cases h9 : i = 9
      · rw [if_pos h9, if_pos (show 10 ≤ i + (stopIndex rest + 1) by omega)]
      · have ha' : a + byte.toNat % 128 * 2 ^ (7 * i) < 2 ^ (7 * (i + 1)) := by
          rw [Nat.mul_succ, Nat.pow_add]
          have := Nat.mul_le_mul_right (2 ^ (7 * i)) (Nat.lt_succ_iff.1 hg)
          omega
        -- the group read here, and the groups after it at seven bits more
        have hv : ∀ V : Nat, a + byte.toNat % 128 * 2 ^ (7 * i) + V * 2 ^ (7 * (i + 1)) =
            a + (byte.toNat % 128 + 128 * V) * 2 ^ (7 * i) := fun V => by
          rw [Nat.mul_succ, Nat.pow_add, Nat.add_mul, Nat.add_assoc, show (2 : Nat) ^ 7 = 128 from rfl]
          ac_rfl
        rw [if_neg h9, decodeRungs_eq rest (by omega) ha' hp', hv]
        simp only [List.length_cons, List.take_succ_cons, List.drop_succ_cons, groupValue,
          show i + 1 + stopIndex rest = i + (stopIndex rest + 1) by omega, Nat.add_lt_add_iff_right]

/-- The decoder reads the bytes up to the first one without bit 7 as base-128 groups, low group
first, and returns their value in 64 bits and the bytes after that one. It faults with
"corrupted uint64 protocol buffer" when the first ten bytes all have bit 7, and reads past the
end when the bytes end before such a byte. So it accepts every varint of at most ten bytes,
padded ones too, on which it inverts the encoder only up to the padding. -/
theorem varint_decoder_reads_groups (ptr : Bytes) :
    privateEncodingToUint64 ptr =
      if 10 ≤ stopIndex ptr then .error .corruptUint64
      else if stopIndex ptr < ptr.length then
        .ok ((groupValue (ptr.take (stopIndex ptr + 1)) % 2 ^ 64).toUInt64,
          ptr.drop (stopIndex ptr + 1))
      else .error .readPastEnd := by
  simpa using decodeRungs_eq ptr (i := 0) (a := 0) (by decide) (by decide) (by simp [PartsOf])

/-- A padded encoding of 0 decodes to 0. -/
example : privateEncodingToUint64 [128, 0] = .ok (0, []) := rfl

/-! ## The single and pair codecs -/

/-- `uint64_to_encoding(n)`: the encoding of `n`. -/
def uint64ToEncoding (n : UInt64) : Bytes := privateUint64ToEncoding n

/-- `encoding_to_uint64(val)`: the value read from the start of `val`. The C++ does not check
`val`'s size; a read past its end is the fault `readPastEnd`. -/
def encodingToUint64 (val : Bytes) : Except Fault UInt64 :=
  (privateEncodingToUint64 val).map Prod.fst

/-- `uint64_pair_to_encoding(n1, n2)`: the two encodings, one after the other. -/
def uint64PairToEncoding (n1 n2 : UInt64) : Bytes :=
  privateUint64ToEncoding n1 ++ privateUint64ToEncoding n2

/-- `encoding_to_uint64_pair(val)`: two values read in turn, and "corrupt data on read." when
the two reads went past the end of `val`. -/
def encodingToUint64Pair (val : Bytes) : Except Fault (UInt64 × UInt64) := do
  let (n1, ptr2) ← privateEncodingToUint64 val
  let (n2, ptr3) ← privateEncodingToUint64 ptr2
  if val.length - ptr3.length > val.length then .error .corruptData else .ok (n1, n2)

/-- The varint codec round-trips on all of `uint64`, whatever bytes follow the encoding; the
encoding has `max 1 ⌈bitlength / 7⌉` bytes, between 1 and 10; and the pair codec built on it
round-trips without its length check firing. -/
theorem varint_roundtrip (n : UInt64) (s : Bytes) (a b : UInt64) :
    privateEncodingToUint64 (privateUint64ToEncoding n ++ s) = .ok (n, s) ∧
      (privateUint64ToEncoding n).length = max 1 ((n.toNat.size + 6) / 7) ∧
      1 ≤ (privateUint64ToEncoding n).length ∧ (privateUint64ToEncoding n).length ≤ 10 ∧
      encodingToUint64Pair (uint64PairToEncoding a b) = .ok (a, b) := by
  have hlen := length_privateUint64ToEncoding n
  have h10 := varintSize_le_ten n
  refine ⟨privateEncodingToUint64_encoding n s, hlen, ?_, ?_, ?_⟩
  · rw [hlen]; exact le_max_left _ _
  · rw [hlen]; exact h10
  · have h2 := privateEncodingToUint64_encoding b []
    rw [List.append_nil] at h2
    simp [encodingToUint64Pair, uint64PairToEncoding, privateEncodingToUint64_encoding, h2, bind,
      Except.bind]

end Codec
end HashDb

import HashDb.Codec.Varint

/-!
# The three record shapes of the hash data store

`lmdb_hash_data_manager_t` (src/src_libhashdb/lmdb_hash_data_manager.hpp) stores under one
hash either one Type 1 record, or one Type 2 record and several Type 3 records:

* Type 1: `source_id`, `file_offset / sector_size`, `entropy`, the label's size, the label;
* Type 2: a NULL byte, `entropy`, the label's size, the label;
* Type 3: `source_id`, `file_offset / sector_size`.

Every number is a varint. This file has the bytes `put_type1/2/3` write, the readers
`decode_type1/2/3`, and the facts the store's dispatch rests on: each reader gives back what
its writer wrote and ends exactly at the record's end, a Type 1 or Type 3 record starts with a
nonzero byte when `source_id ≥ 1`, and a Type 2 record starts with 0, so it sorts before every
Type 3 record.
-/

namespace HashDb
namespace HashData

open Codec

/-- A `std::string`: its bytes, whose number `size()` fits a `size_t`. -/
abbrev StdString := { s : Bytes // s.length < 2 ^ 64 }

/-- The constants an `lmdb_hash_data_manager_t` is built with. The constructor asserts
`sector_size != 0`; `max_id_offset_pairs` is 0 for no limit. -/
structure Config where
  sectorSize : UInt32
  maxIdOffsetPairs : UInt32
  sectorSize_ne_zero : sectorSize ≠ 0

/-- Modelled from the spec: `lmdb_helper::encode_uint64_t` is not in src/ (the `lmdb_helper.h`
there is an older one). The spec (§4.1) makes it the little-endian base-128 varint of at most
10 bytes, which is the codec `private_uint64_to_encoding` of that file computes. -/
def encodeUint64T (value : UInt64) : Bytes := privateUint64ToEncoding value

/-- Modelled from the spec: `lmdb_helper::decode_uint64_t`, absent from src/ like its encoder;
the varint reader of §4.1 that refuses an eleventh byte, `private_encoding_to_uint64`. -/
def decodeUint64T (p : Bytes) : Except Fault (UInt64 × Bytes) := privateEncodingToUint64 p

/-- `std::string(p, n)` and `p += n`: the next `n` bytes, and the bytes after them. -/
def readString (n : UInt64) (p : Bytes) : Except Fault (StdString × Bytes) :=
  if n.toNat ≤ p.length then
    .ok (⟨p.take n.toNat, lt_of_le_of_lt (List.length_take_le _ _) n.toNat_lt_size⟩,
      p.drop n.toNat)
  else .error .readPastEnd

/-! ## Writers -/

/-- The data item `put_type1` stores. -/
def type1Data (sectorSize : UInt32) (sourceId fileOffset entropy : UInt64)
    (blockLabel : StdString) : Bytes :=
  encodeUint64T sourceId ++ encodeUint64T (fileOffset / sectorSize.toUInt64) ++
    encodeUint64T entropy ++ encodeUint64T blockLabel.1.length.toUInt64 ++ blockLabel.1

/-- The data item `put_type2` stores: a NULL byte first. -/
def type2Data (entropy : UInt64) (blockLabel : StdString) : Bytes :=
  0 :: (encodeUint64T entropy ++ encodeUint64T blockLabel.1.length.toUInt64 ++ blockLabel.1)

/-- The data item `put_type3` stores. -/
def type3Data (sectorSize : UInt32) (sourceId fileOffset : UInt64) : Bytes :=
  encodeUint64T sourceId ++ encodeUint64T (fileOffset / sectorSize.toUInt64)

/-! ## Readers -/

/-- `decode_type1`: `(source_id, file_offset, entropy, block_label)`; the read must end at the
end of the record. -/
def decodeType1 (sectorSize : UInt32) (data : Bytes) :
    Except Fault (UInt64 × UInt64 × UInt64 × StdString) := do
  let (sourceId, p) ← decodeUint64T data
  let (fileOffsetIndex, p) ← decodeUint64T p
  let (entropy, p) ← decodeUint64T p
  let (blockLabelSize, p) ← decodeUint64T p
  let (blockLabel, p) ← readString blockLabelSize p
  if p = [] then .ok (sourceId, fileOffsetIndex * sectorSize.toUInt64, entropy, blockLabel)
  else .error .misaligned

/-- `decode_type2`: `(entropy, block_label)`, read after the NULL byte. -/
def decodeType2 (data : Bytes) : Except Fault (UInt64 × StdString) := do
  let (entropy, p) ← decodeUint64T data.tail
  let (blockLabelSize, p) ← decodeUint64T p
  let (blockLabel, p) ← readString blockLabelSize p
  if p = [] then .ok (entropy, blockLabel) else .error .misaligned

/-- `decode_type3`: `(source_id, file_offset)`. -/
def decodeType3 (sectorSize : UInt32) (data : Bytes) : Except Fault (UInt64 × UInt64) := do
  let (sourceId, p) ← decodeUint64T data
  let (fileOffsetIndex, p) ← decodeUint64T p
  if p = [] then .ok (sourceId, fileOffsetIndex * sectorSize.toUInt64) else .error .misaligned

/-! ## Round trips -/

section RoundTrip

variable {sectorSize : UInt32} {sourceId fileOffset entropy : UInt64} {blockLabel : StdString}

@[simp] theorem decodeUint64T_encodeUint64T (value : UInt64) (s : Bytes) :
    decodeUint64T (encodeUint64T value ++ s) = .ok (value, s) :=
  privateEncodingToUint64_encoding value s

theorem readString_append (s : StdString) (rest : Bytes) :
    readString s.1.length.toUInt64 (s.1 ++ rest) = .ok (s, rest) := by
  have h : s.1.length.toUInt64.toNat = s.1.length := by
    rw [nat_toUInt64_toNat, Nat.mod_eq_of_lt s.2]
  simp [readString, h]

/-- An offset that is a multiple of the sector size survives its sector index. -/
theorem div_mul_sectorSize (hss : sectorSize ≠ 0) (h : fileOffset % sectorSize.toUInt64 = 0) :
    fileOffset / sectorSize.toUInt64 * sectorSize.toUInt64 = fileOffset := by
  have hpos : 0 < sectorSize.toNat := Nat.pos_of_ne_zero fun h0 => hss (UInt32.toNat.inj h0)
  have hmod : fileOffset.toNat % sectorSize.toNat = 0 := by
    simpa using congrArg UInt64.toNat h
  apply UInt64.toNat.inj
  show (fileOffset.toNat / sectorSize.toNat * sectorSize.toNat) % 2 ^ 64 = fileOffset.toNat
  rw [Nat.div_mul_cancel (Nat.dvd_of_mod_eq_zero hmod)]
  exact Nat.mod_eq_of_lt fileOffset.toNat_lt_size

theorem decodeType1_type1Data (hss : sectorSize ≠ 0) (h : fileOffset % sectorSize.toUInt64 = 0) :
    decodeType1 sectorSize (type1Data sectorSize sourceId fileOffset entropy blockLabel) =
      .ok (sourceId, fileOffset, entropy, blockLabel) := by
  have hl := readString_append blockLabel []
  rw [List.append_nil] at hl
  simp [decodeType1, type1Data, bind, Except.bind, hl, div_mul_sectorSize hss h]

theorem decodeType2_type2Data :
    decodeType2 (type2Data entropy blockLabel) = .ok (entropy, blockLabel) := by
  have hl := readString_append blockLabel []
  rw [List.append_nil] at hl
  simp [decodeType2, type2Data, bind, Except.bind, hl]

theorem decodeType3_type3Data (hss : sectorSize ≠ 0) (h : fileOffset % sectorSize.toUInt64 = 0) :
    decodeType3 sectorSize (type3Data sectorSize sourceId fileOffset) = .ok (sourceId, fileOffset) := by
  have h2 := decodeUint64T_encodeUint64T (fileOffset / sectorSize.toUInt64) []
  rw [List.append_nil] at h2
  simp [decodeType3, type3Data, bind, Except.bind, h2, div_mul_sectorSize hss h]

/-! ### First bytes -/

/-- The varint of a nonzero value starts with a nonzero byte. -/
theorem encodeUint64T_cons (hv : entropy ≠ 0) :
    ∃ b rest, encodeUint64T entropy = b :: rest ∧ b ≠ 0 := by
  obtain ⟨b, rest, he, hb⟩ := privateUint64ToEncoding_cons entropy
  refine ⟨b, rest, he, fun h0 => hv (UInt64.toNat.inj ?_)⟩
  have hlt := (varintSize_spec entropy.toNat).2.1
  rw [h0] at hb
  split_ifs at hb with h1
  · simp at hb
  · rw [show varintSize entropy.toNat = 1 by have := (varintSize_spec entropy.toNat).1; omega] at hlt
    simp at hb; simp; omega

theorem type1Data_cons (hsid : sourceId ≠ 0) :
    ∃ b rest, type1Data sectorSize sourceId fileOffset entropy blockLabel = b :: rest ∧ b ≠ 0 := by
  obtain ⟨b, rest, he, hb⟩ := encodeUint64T_cons hsid
  exact ⟨b, _, by simp only [type1Data, he, List.cons_append]; rfl, hb⟩

theorem type3Data_cons (hsid : sourceId ≠ 0) :
    ∃ b rest, type3Data sectorSize sourceId fileOffset = b :: rest ∧ b ≠ 0 := by
  obtain ⟨b, rest, he, hb⟩ := encodeUint64T_cons hsid
  exact ⟨b, _, by simp only [type3Data, he, List.cons_append]; rfl, hb⟩

/-- A Type 2 record sorts before every Type 3 record. -/
theorem type2Data_lt_type3Data (hsid : sourceId ≠ 0) (entropy' : UInt64) (blockLabel' : StdString) :
    type2Data entropy' blockLabel' < type3Data sectorSize sourceId fileOffset := by
  obtain ⟨b, rest, he, hb⟩ :
      ∃ b rest, type3Data sectorSize sourceId fileOffset = b :: rest ∧ b ≠ 0 := type3Data_cons hsid
  rw [he, type2Data]
  exact List.Lex.rel (lt_of_le_of_ne (Nat.zero_le _) (Ne.symm hb))

/-- The record codec: each reader gives back what its writer wrote, reading the whole record;
Type 1 and Type 3 records start with a nonzero byte and Type 2 records with 0, so that every
Type 2 record sorts before every Type 3 record. -/
theorem record_codec_roundtrip (cfg : Config) (hsid : sourceId ≠ 0)
    (hfo : fileOffset % cfg.sectorSize.toUInt64 = 0) (entropy' : UInt64) (blockLabel' : StdString) :
    decodeType1 cfg.sectorSize (type1Data cfg.sectorSize sourceId fileOffset entropy blockLabel) =
      .ok (sourceId, fileOffset, entropy, blockLabel) ∧
    decodeType2 (type2Data entropy blockLabel) = .ok (entropy, blockLabel) ∧
    decodeType3 cfg.sectorSize (type3Data cfg.sectorSize sourceId fileOffset) =
      .ok (sourceId, fileOffset) ∧
    (∃ b rest, type1Data cfg.sectorSize sourceId fileOffset entropy blockLabel = b :: rest ∧
      b ≠ 0) ∧
    (∃ rest, type2Data entropy blockLabel = 0 :: rest) ∧
    (∃ b rest, type3Data cfg.sectorSize sourceId fileOffset = b :: rest ∧ b ≠ 0) ∧
    type2Data entropy' blockLabel' < type3Data cfg.sectorSize sourceId fileOffset :=
  ⟨decodeType1_type1Data cfg.sectorSize_ne_zero hfo, decodeType2_type2Data,
    decodeType3_type3Data cfg.sectorSize_ne_zero hfo, type1Data_cons hsid, ⟨_, rfl⟩,
    type3Data_cons hsid, type2Data_lt_type3Data hsid entropy' blockLabel'⟩

/-- The codec at `source_id = 1`, an offset of one 512-byte sector, and the label "W". -/
theorem record_codec_roundtrip_sector :
    (1 : UInt64) ≠ 0 ∧ (512 : UInt64) % (⟨512, 0, by decide⟩ : Config).sectorSize.toUInt64 = 0 ∧
    decodeType1 512 (type1Data 512 1 512 7 ⟨[87], by decide⟩) = .ok (1, 512, 7, ⟨[87], by decide⟩) ∧
    decodeType2 (type2Data 7 ⟨[87], by decide⟩) = .ok (7, ⟨[87], by decide⟩) ∧
    decodeType3 512 (type3Data 512 1 512) = .ok (1, 512) ∧
    (∃ b rest, type1Data 512 1 512 7 ⟨[87], by decide⟩ = b :: rest ∧ b ≠ 0) ∧
    (∃ rest, type2Data 7 ⟨[87], by decide⟩ = 0 :: rest) ∧
    (∃ b rest, type3Data 512 1 512 = b :: rest ∧ b ≠ 0) ∧
    type2Data 9 ⟨[], by decide⟩ < type3Data 512 1 512 :=
  ⟨by decide, by decide, record_codec_roundtrip ⟨512, 0, by decide⟩ (by decide) (by decide) 9
    ⟨[], by decide⟩⟩

end RoundTrip

end HashData
end HashDb

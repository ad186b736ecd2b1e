import HashDb.HashData.Manager
import Mathlib.Data.Finset.Card

/-!
# What the store holds for a hash

The records under one hash encode an `Entry`: the metadata `find` returns (`entropy`,
`block_label`) and the set of `(source_id, file_offset)` pairs it returns with them.

* `Holds cfg vals e`: the records `vals` of a hash are the store's encoding of `e` (`none`: no
  record), in one of the two layouts the store writes: one Type 1 record, or a Type 2 record
  followed by one Type 3 record per pair, in LMDB's order.
* `Holds.unique`: an entry has one encoding, so two stores that hold the same entries hold the
  same records.
* `Entry.step` and `Entry.tally`: `insert` read on entries, the entry it leaves and the
  counters it raises, with the policies of both of its branches as the C++ has them (the Type 1
  branch's `at_max` is a limit of exactly one; a Type 1 record at that limit is replaced when
  the metadata changes). That the C++ computes them is `insert_spec` (HashData/Refinement).
-/

namespace HashDb
namespace HashData

open Lmdb

/-- A hash's entry: its metadata and its source pairs. -/
structure Entry where
  entropy : UInt64
  blockLabel : StdString
  pairs : Finset (UInt64 × UInt64)
  deriving DecidableEq

/-- A pair `insert` stores: `source_id ≥ 1` and an offset on a sector boundary. -/
def ValidPair (cfg : Config) (p : UInt64 × UInt64) : Prop :=
  p.1 ≠ 0 ∧ p.2 % cfg.sectorSize.toUInt64 = 0

instance (cfg : Config) : DecidablePred (ValidPair cfg) :=
  fun _ => inferInstanceAs (Decidable (_ ∧ _))

/-- `Holds cfg vals e`: the records `vals` of a hash encode the entry `e`. -/
inductive Holds (cfg : Config) : List Bytes → Option Entry → Prop
  /-- No record: the hash is absent. -/
  | absent : Holds cfg [] none
  /-- One Type 1 record, for an entry with one pair. -/
  | type1 {sourceId fileOffset entropy : UInt64} {blockLabel : StdString}
      (hv : ValidPair cfg (sourceId, fileOffset)) :
      Holds cfg [type1Data cfg.sectorSize sourceId fileOffset entropy blockLabel]
        (some ⟨entropy, blockLabel, {(sourceId, fileOffset)}⟩)
  /-- A Type 2 record, then in increasing order one Type 3 record per pair, for an entry with
  two pairs or more. -/
  | type2 {entropy : UInt64} {blockLabel : StdString} {pairs : Finset (UInt64 × UInt64)}
      {t3s : List Bytes} (hv : ∀ p ∈ pairs, ValidPair cfg p) (hcard : 2 ≤ pairs.card)
      (hsorted : t3s.Sorted (· < ·))
      (hmem : ∀ d, d ∈ t3s ↔ ∃ p ∈ pairs, d = type3Data cfg.sectorSize p.1 p.2) :
      Holds cfg (type2Data entropy blockLabel :: t3s) (some ⟨entropy, blockLabel, pairs⟩)

/-- The number of pairs of a hash: what `find_count` returns. -/
def sourceCount : Option Entry → Nat
  | none => 0
  | some ent => ent.pairs.card

/-! ## Type 3 records name their pairs -/

section Type3

variable {cfg : Config} {p q : UInt64 × UInt64} {pairs : Finset (UInt64 × UInt64)}
  {t3s : List Bytes}

theorem type3Data_inj (hp : ValidPair cfg p) (hq : ValidPair cfg q)
    (h : type3Data cfg.sectorSize p.1 p.2 = type3Data cfg.sectorSize q.1 q.2) : p = q := by
  have hd : decodeType3 cfg.sectorSize (type3Data cfg.sectorSize p.1 p.2) = .ok (p.1, p.2) :=
    decodeType3_type3Data cfg.sectorSize_ne_zero hp.2
  rw [h, decodeType3_type3Data cfg.sectorSize_ne_zero hq.2] at hd
  simp only [Except.ok.injEq, Prod.mk.injEq] at hd
  exact Prod.ext hd.1.symm hd.2.symm

variable (hv : ∀ p ∈ pairs, ValidPair cfg p)
  (hmem : ∀ d, d ∈ t3s ↔ ∃ p ∈ pairs, d = type3Data cfg.sectorSize p.1 p.2)
include hv hmem

theorem type3Data_mem_iff (hp : ValidPair cfg p) :
    type3Data cfg.sectorSize p.1 p.2 ∈ t3s ↔ p ∈ pairs := by
  rw [hmem]
  exact ⟨fun ⟨q, hq, h⟩ => type3Data_inj hp (hv q hq) h ▸ hq, fun h => ⟨p, h, rfl⟩⟩

theorem length_type3s (hs : t3s.Nodup) : t3s.length = pairs.card := by
  have himage : t3s.toFinset = pairs.image fun p => type3Data cfg.sectorSize p.1 p.2 := by
    ext d; simp [hmem, eq_comm]
  rw [← List.toFinset_card_of_nodup hs, himage,
    Finset.card_image_of_injOn fun p hp q hq h => type3Data_inj (hv p hp) (hv q hq) h]

end Type3

namespace Holds

variable {cfg : Config} {vals vals' : List Bytes} {e : Option Entry}

/-- Every pair of a held entry is one `insert` accepts. -/
theorem valid (h : Holds cfg vals (some ent)) : ∀ p ∈ ent.pairs, ValidPair cfg p := by
  cases h with
  | type1 hv => simpa using hv
  | type2 hv => exact hv

theorem card_pos (h : Holds cfg vals (some ent)) : 0 < ent.pairs.card := by
  cases h with
  | type1 => simp
  | type2 _ hcard => exact Nat.lt_of_lt_of_le (by decide) hcard

theorem eq_nil_iff (h : Holds cfg vals e) : vals = [] ↔ e = none := by
  cases h <;> simp

/-- A held one-pair entry is one Type 1 record. -/
theorem eq_type1 (h : Holds cfg vals (some ent)) (h1 : ent.pairs.card = 1) :
    ∃ s f, ent.pairs = {(s, f)} ∧ ValidPair cfg (s, f) ∧
      vals = [type1Data cfg.sectorSize s f ent.entropy ent.blockLabel] := by
  cases h with
  | type1 hv => exact ⟨_, _, rfl, hv, rfl⟩
  | type2 _ hcard => simp only at h1; omega

/-- A held entry of several pairs is a Type 2 record and the Type 3 records of its pairs. -/
theorem eq_type2 (h : Holds cfg vals (some ent)) (h1 : ent.pairs.card ≠ 1) :
    ∃ t3s, vals = type2Data ent.entropy ent.blockLabel :: t3s ∧ t3s.Sorted (· < ·) ∧
      ∀ d, d ∈ t3s ↔ ∃ p ∈ ent.pairs, d = type3Data cfg.sectorSize p.1 p.2 := by
  cases h with
  | type1 => simp at h1
  | type2 _ _ hsorted hmem => exact ⟨_, rfl, hsorted, hmem⟩

/-- An entry has one encoding. -/
theorem unique (h : Holds cfg vals e) (h' : Holds cfg vals' e) : vals = vals' := by
  cases h with
  | absent => cases h'; rfl
  | type1 =>
    obtain ⟨s, f, hp, -, rfl⟩ := h'.eq_type1 (Finset.card_singleton _)
    obtain ⟨rfl, rfl⟩ := Prod.mk.inj (Finset.singleton_inj.1 hp)
    rfl
  | type2 _ hcard hsorted hmem =>
    obtain ⟨t3s', rfl, hsorted', hmem'⟩ := h'.eq_type2 (by simp only; omega)
    refine congrArg _ (List.eq_of_perm_of_sorted ?_ hsorted hsorted')
    exact (List.perm_ext_iff_of_nodup hsorted.nodup hsorted'.nodup).2 fun d => by
      rw [hmem, hmem']

/-- The records of a hash with an entry: one for one pair, a Type 2 record and one per pair for
more. -/
theorem length_eq (h : Holds cfg vals (some ent)) :
    vals.length = if ent.pairs.card = 1 then 1 else ent.pairs.card + 1 := by
  cases h with
  | type1 => simp
  | type2 hv hcard hsorted hmem =>
    simp only
    rw [if_neg (by omega), List.length_cons, length_type3s hv hmem hsorted.nodup]

end Holds

/-! ## `insert` on entries -/

namespace Entry

section Policy

variable (cfg : Config) (pair : UInt64 × UInt64) (entropy : UInt64) (blockLabel : StdString)

/-- Whether `insert` finds the entry at its pair limit. The Type 1 branch tests
`max_id_offset_pairs != 0 && 1 >= max_id_offset_pairs`; the Type 2 branch tests
`count >= max_id_offset_pairs`, where a limit of 0 is always reached. -/
def AtMax (ent : Entry) : Prop :=
  if ent.pairs.card = 1 then cfg.maxIdOffsetPairs ≠ 0 ∧ 1 ≥ cfg.maxIdOffsetPairs
  else cfg.maxIdOffsetPairs.toNat ≤ ent.pairs.card

instance (ent : Entry) : Decidable (AtMax cfg ent) :=
  inferInstanceAs (Decidable (if _ then _ else _))

/-- The call's metadata is the entry's. -/
def SameData (ent : Entry) : Prop := entropy = ent.entropy ∧ blockLabel = ent.blockLabel

instance (ent : Entry) : Decidable (SameData entropy blockLabel ent) :=
  inferInstanceAs (Decidable (_ ∧ _))

/-- The entry `insert` leaves, from the one it found, on a call with a valid offset: the
call's metadata always; the pair added unless present or at the limit, where a one-pair entry
whose metadata changes is rewritten with the call's pair. -/
def step : Option Entry → Entry
  | none => ⟨entropy, blockLabel, {pair}⟩
  | some ent =>
    ⟨entropy, blockLabel,
      if pair ∈ ent.pairs then ent.pairs
      else if AtMax cfg ent then
        if ent.pairs.card = 1 ∧ ¬SameData entropy blockLabel ent then {pair} else ent.pairs
      else Insert.insert pair ent.pairs⟩

/-- The source counter `insert` raises on a hash holding `ent`. -/
def tallySource (ent : Entry) (c : LmdbChanges) : LmdbChanges :=
  if AtMax cfg ent then { c with hashDataSourceAtMax := c.hashDataSourceAtMax + 1 }
  else if pair ∈ ent.pairs then
    { c with hashDataSourceAlreadyPresent := c.hashDataSourceAlreadyPresent + 1 }
  else { c with hashDataSourceInserted := c.hashDataSourceInserted + 1 }

/-- The counters `insert` raises, on a call with a valid offset. -/
def tally : Option Entry → LmdbChanges → LmdbChanges
  | none, c => { c with
      hashDataDataInserted := c.hashDataDataInserted + 1
      hashDataSourceInserted := c.hashDataSourceInserted + 1 }
  | some ent, c =>
    tallySource cfg pair ent <|
      if SameData entropy blockLabel ent then { c with hashDataDataSame := c.hashDataDataSame + 1 }
      else { c with hashDataDataChanged := c.hashDataDataChanged + 1 }

variable {cfg pair entropy blockLabel}

@[simp] theorem step_entropy (e : Option Entry) : (step cfg pair entropy blockLabel e).entropy = entropy := by
  cases e <;> rfl

@[simp] theorem step_blockLabel (e : Option Entry) :
    (step cfg pair entropy blockLabel e).blockLabel = blockLabel := by
  cases e <;> rfl

end Policy

end Entry

end HashData
end HashDb

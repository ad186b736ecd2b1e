import HashDb.HashData.Entry

/-!
# The store's operations on entries

One spec lemma per operation of `lmdb_hash_data_manager_t`, for a hash whose records encode an
entry (`Holds`):

* `insert_spec`: `insert` returns the source count of `Entry.step`, raises the counters of
  `Entry.tally`, leaves records that encode `Entry.step`, and touches no other hash;
* `insert_reject`: a call with an offset off the sector grid changes nothing but its counter;
* `find_spec`: `find` returns the entry (`Entry.found`);
* `findCount_spec`: `find_count` returns its number of pairs.

Each branch of `insert` has its own lemma (`insert_absent`, `insertType1_spec`,
`insertType2_spec` with `addType3_spec`); they rest on the effect of `Db.put` and `Db.del` on
`Db.dups` and on the order of the records (a Type 2 record sorts first).
-/

namespace HashDb
namespace HashData

open Lmdb Entry

/-- What `find` returns for a hash holding `e`. -/
def Entry.found : Option Entry → Bool × UInt64 × StdString × Finset (UInt64 × UInt64)
  | none => (false, 0, ⟨[], by decide⟩, ∅)
  | some ent => (true, ent.entropy, ent.blockLabel, ent.pairs)

/-! ## Record order -/

section Order

variable {t3s : List Bytes} {entropy : UInt64} {blockLabel : StdString}

theorem orderedInsert_type2 (h : ∀ d ∈ t3s, type2Data entropy blockLabel < d) :
    t3s.orderedInsert (· ≤ ·) (type2Data entropy blockLabel) = type2Data entropy blockLabel :: t3s := by
  cases t3s with
  | nil => rfl
  | cons d t3s => simp [le_of_lt (h d (List.mem_cons_self _ _))]

theorem orderedInsert_type3 {sectorSize : UInt32} {sourceId fileOffset : UInt64}
    (hs : sourceId ≠ 0) :
    (type2Data entropy blockLabel :: t3s).orderedInsert (· ≤ ·) (type3Data sectorSize sourceId fileOffset) =
      type2Data entropy blockLabel :: t3s.orderedInsert (· ≤ ·) (type3Data sectorSize sourceId fileOffset) := by
  simp [not_le.2 (type2Data_lt_type3Data hs entropy blockLabel)]

end Order

/-! ## `insert` -/

section Insert

variable {cfg : Config} {db : Db} {changes : LmdbChanges} {binaryHash : Bytes}
  {sourceId fileOffset entropy : UInt64} {blockLabel : StdString}

theorem putType1_eq (hf : fileOffset % cfg.sectorSize.toUInt64 = 0) :
    putType1 cfg db binaryHash sourceId fileOffset entropy blockLabel =
      .ok (db.put binaryHash (type1Data cfg.sectorSize sourceId fileOffset entropy blockLabel)) := by
  simp [putType1, hf]

theorem putType3_eq (hf : fileOffset % cfg.sectorSize.toUInt64 = 0) :
    putType3 cfg db binaryHash sourceId fileOffset =
      .ok (db.put binaryHash (type3Data cfg.sectorSize sourceId fileOffset)) := by
  simp [putType3, hf]

/-- A call with an offset off the sector grid only counts itself. -/
theorem insert_reject (hs : sourceId ≠ 0) (hk : binaryHash ≠ [])
    (hf : fileOffset % cfg.sectorSize.toUInt64 ≠ 0) :
    insert cfg db changes binaryHash sourceId fileOffset entropy blockLabel =
      .ok (0, db, { changes with
        hashDataInvalidFileOffset := changes.hashDataInvalidFileOffset + 1 }) := by
  simp [insert, hs, hk, hf]

variable (hs : sourceId ≠ 0) (hf : fileOffset % cfg.sectorSize.toUInt64 = 0)
include hs hf

/-- The dispatch of `insert` on the first byte of the hash's first record. -/
theorem insert_of_head {b : UInt8} {rest : Bytes} {ds : List Bytes}
    (hd : db.dups binaryHash = (b :: rest) :: ds) (hk : binaryHash ≠ []) :
    insert cfg db changes binaryHash sourceId fileOffset entropy blockLabel =
      if b ≠ 0 then insertType1 cfg db changes binaryHash sourceId fileOffset entropy blockLabel (b :: rest)
      else insertType2 cfg db changes binaryHash sourceId fileOffset entropy blockLabel (b :: rest) := by
  simp [insert, hs, hk, hf, hd]

/-- The new-hash path: one Type 1 record. -/
theorem insert_absent (hk : binaryHash ≠ []) (hd : db.dups binaryHash = []) :
    ∃ db' vals, insert cfg db changes binaryHash sourceId fileOffset entropy blockLabel =
        .ok ((step cfg (sourceId, fileOffset) entropy blockLabel none).pairs.card, db',
          tally cfg (sourceId, fileOffset) entropy blockLabel none changes) ∧
      db'.dups = Function.update db.dups binaryHash vals ∧
      Holds cfg vals (some (step cfg (sourceId, fileOffset) entropy blockLabel none)) := by
  obtain ⟨db', hput, hdups⟩ := Db.put_of_not_mem db binaryHash
    (type1Data cfg.sectorSize sourceId fileOffset entropy blockLabel) (by simp [hd])
  refine ⟨db', _, ?_, hdups, ?_⟩
  · simp [insert, hs, hk, hf, hd, putType1_eq hf, hput, bind, Except.bind, step, tally]
  · rw [hd]; exact Holds.type1 ⟨hs, hf⟩

/-- The Type 1 branch: unchanged, rewritten, or promoted to a Type 2 record and the Type 3
records of the old and the new pair. -/
theorem insertType1_spec {s0 f0 e0 : UInt64} {l0 : StdString} (hv0 : ValidPair cfg (s0, f0))
    (hd : db.dups binaryHash = [type1Data cfg.sectorSize s0 f0 e0 l0]) :
    let ent : Entry := ⟨e0, l0, {(s0, f0)}⟩
    ∃ db' vals, insertType1 cfg db changes binaryHash sourceId fileOffset entropy blockLabel
          (type1Data cfg.sectorSize s0 f0 e0 l0) =
        .ok ((step cfg (sourceId, fileOffset) entropy blockLabel (some ent)).pairs.card, db',
          tally cfg (sourceId, fileOffset) entropy blockLabel (some ent) changes) ∧
      db'.dups = Function.update db.dups binaryHash vals ∧
      Holds cfg vals (some (step cfg (sourceId, fileOffset) entropy blockLabel (some ent))) := by
  intro ent
  simp only [insertType1, decodeType1_type1Data cfg.sectorSize_ne_zero hv0.2, bind, Except.bind]
  by_cases hkeep : (sourceId = s0 ∧ fileOffset = f0) ∨
      (cfg.maxIdOffsetPairs ≠ 0 ∧ 1 ≥ cfg.maxIdOffsetPairs)
  · by_cases hsame : entropy = e0 ∧ blockLabel = l0
    · -- no change
      obtain ⟨rfl, rfl⟩ := hsame
      have hstep : step cfg (sourceId, fileOffset) entropy blockLabel (some ent) = ent := by
        rcases hkeep with h | h <;> simp [ent, step, AtMax, SameData, h]
      rw [hstep]
      refine ⟨db, _, ?_, (Function.update_eq_self _ _).symm, hd ▸ Holds.type1 hv0⟩
      simp [ent, hkeep, tally, tallySource, AtMax, SameData]
    · -- rewrite the Type 1 record
      have hstep : step cfg (sourceId, fileOffset) entropy blockLabel (some ent) =
          ⟨entropy, blockLabel, {(sourceId, fileOffset)}⟩ := by
        rcases hkeep with ⟨rfl, rfl⟩ | h
        · simp [step]
        · by_cases hsrc : sourceId = s0 ∧ fileOffset = f0
          · obtain ⟨rfl, rfl⟩ := hsrc; simp [step]
          · simp [ent, step, AtMax, SameData, h, hsame, hsrc]
      rw [hstep]
      obtain ⟨db', hput, hdups⟩ := Db.put_of_not_mem
        (db.del binaryHash (type1Data cfg.sectorSize s0 f0 e0 l0)) binaryHash
        (type1Data cfg.sectorSize sourceId fileOffset entropy blockLabel) (by simp [Db.dups_del, hd])
      refine ⟨db', _, ?_, by simp [hdups, Db.dups_del, hd], Holds.type1 ⟨hs, hf⟩⟩
      simp [ent, hkeep, hsame, tally, tallySource, AtMax, SameData, putType1_eq hf, hput]
  · -- promote to a Type 2 record and two Type 3 records
    have hne : (sourceId, fileOffset) ≠ (s0, f0) := fun h => hkeep (.inl (Prod.mk.inj h))
    have hmax : ¬(cfg.maxIdOffsetPairs ≠ 0 ∧ 1 ≥ cfg.maxIdOffsetPairs) := fun h => hkeep (.inr h)
    have hstep : step cfg (sourceId, fileOffset) entropy blockLabel (some ent) =
        ⟨entropy, blockLabel, {(sourceId, fileOffset), (s0, f0)}⟩ := by
      simp [ent, step, AtMax, hne, hmax]
    rw [hstep]
    have h2o : type2Data entropy blockLabel < type3Data cfg.sectorSize s0 f0 :=
      type2Data_lt_type3Data hv0.1 _ _
    have h2n : type2Data entropy blockLabel < type3Data cfg.sectorSize sourceId fileOffset :=
      type2Data_lt_type3Data hs _ _
    have hon : type3Data cfg.sectorSize sourceId fileOffset ≠ type3Data cfg.sectorSize s0 f0 :=
      fun h => hne (type3Data_inj ⟨hs, hf⟩ hv0 h)
    obtain ⟨db2, hput2, hd2⟩ := Db.put_of_not_mem
      (db.del binaryHash (type1Data cfg.sectorSize s0 f0 e0 l0)) binaryHash
      (type2Data entropy blockLabel) (by simp [Db.dups_del, hd])
    obtain ⟨db3, hput3, hd3⟩ := Db.put_of_not_mem db2 binaryHash
      (type3Data cfg.sectorSize s0 f0) (by simp [hd2, Db.dups_del, hd, ne_of_gt h2o])
    obtain ⟨db4, hput4, hd4⟩ := Db.put_of_not_mem db3 binaryHash
      (type3Data cfg.sectorSize sourceId fileOffset)
      (by simp [hd3, hd2, Db.dups_del, hd, not_le.2 h2o, ne_of_gt h2n, hon])
    refine ⟨db4, type2Data entropy blockLabel ::
      [type3Data cfg.sectorSize s0 f0].orderedInsert (· ≤ ·) (type3Data cfg.sectorSize sourceId fileOffset),
      ?_, by simp [hd4, hd3, hd2, Db.dups_del, hd, not_le.2 h2o, not_le.2 h2n], ?_⟩
    · simp [ent, hkeep, tally, tallySource, AtMax, SameData, putType2, putType3_eq hv0.2,
        putType3_eq hf, hput2, hput3, hput4, Finset.card_pair hne]
    · refine Holds.type2 (fun q hq => ?_) (Finset.card_pair hne).ge
        (sorted_orderedInsert (List.sorted_singleton _) (by simpa using hon)) fun d => by
          rw [List.mem_orderedInsert]; simp
      rcases Finset.mem_insert.1 hq with rfl | hq
      · exact ⟨hs, hf⟩
      · exact Finset.mem_singleton.1 hq ▸ hv0

section Type2

variable {pairs : Finset (UInt64 × UInt64)} {t3s : List Bytes}
  (hv0 : ∀ q ∈ pairs, ValidPair cfg q) (hcard : 2 ≤ pairs.card) (hsorted : t3s.Sorted (· < ·))
  (hmem : ∀ d, d ∈ t3s ↔ ∃ p ∈ pairs, d = type3Data cfg.sectorSize p.1 p.2)
include hv0 hcard hsorted hmem

/-- The end of the Type 2 branch, on the store `D` whose records for the hash are the Type 2
record of the call's metadata and the Type 3 records of `pairs`. -/
theorem addType3_spec (C : LmdbChanges) (e0 : UInt64) (l0 : StdString) {D : Db}
    (hD : D.dups binaryHash = type2Data entropy blockLabel :: t3s) :
    ∃ db' vals, addType3 cfg binaryHash sourceId fileOffset pairs.card D C =
        .ok ((step cfg (sourceId, fileOffset) entropy blockLabel (some ⟨e0, l0, pairs⟩)).pairs.card,
          db', tallySource cfg (sourceId, fileOffset) ⟨e0, l0, pairs⟩ C) ∧
      db'.dups = Function.update D.dups binaryHash vals ∧
      Holds cfg vals
        (some (step cfg (sourceId, fileOffset) entropy blockLabel (some ⟨e0, l0, pairs⟩))) := by
  have hc1 : pairs.card ≠ 1 := by omega
  have hiff : type3Data cfg.sectorSize sourceId fileOffset ∈ t3s ↔ (sourceId, fileOffset) ∈ pairs :=
    type3Data_mem_iff (p := (sourceId, fileOffset)) hv0 hmem ⟨hs, hf⟩
  by_cases hmax : pairs.card ≥ cfg.maxIdOffsetPairs.toNat
  · -- at max
    refine ⟨D, _, ?_, (Function.update_eq_self _ _).symm, ?_⟩
    · simp [addType3, hmax, step, tallySource, AtMax, hc1]
    · rw [hD]; simp [step, AtMax, hc1, hmax]
      exact Holds.type2 hv0 hcard hsorted hmem
  by_cases hin : (sourceId, fileOffset) ∈ pairs
  · -- already present
    have hput : D.put binaryHash (type3Data cfg.sectorSize sourceId fileOffset) = none :=
      Db.put_eq_none_iff.2 (by rw [hD]; exact List.mem_cons_of_mem _ (hiff.2 hin))
    refine ⟨D, _, ?_, (Function.update_eq_self _ _).symm, ?_⟩
    · simp [addType3, hmax, putType3_eq hf, hput, bind, Except.bind, step, tallySource,
        AtMax, hc1, hin]
    · rw [hD]; simp [step, hin]
      exact Holds.type2 hv0 hcard hsorted hmem
  · -- inserted
    obtain ⟨db', hput, hdups⟩ := Db.put_of_not_mem D binaryHash
      (type3Data cfg.sectorSize sourceId fileOffset) (by
        rw [hD]
        exact List.not_mem_cons_of_ne_of_not_mem (ne_of_gt (type2Data_lt_type3Data hs _ _))
          (mt hiff.1 hin))
    refine ⟨db', _, ?_, by rw [hdups, hD, orderedInsert_type3 hs], ?_⟩
    · simp [addType3, hmax, putType3_eq hf, hput, bind, Except.bind, step, tallySource,
        AtMax, hc1, hin]
    · simp only [step, hin, if_false, AtMax, hc1, hmax]
      refine Holds.type2 (Finset.forall_mem_insert _ _ _ |>.2 ⟨⟨hs, hf⟩, hv0⟩)
        (hcard.trans (Finset.card_le_card (Finset.subset_insert _ _)))
        (sorted_orderedInsert hsorted (mt hiff.1 hin)) fun d => ?_
      rw [List.mem_orderedInsert, hmem, Finset.exists_mem_insert]

/-- The Type 2 branch: the Type 2 record rewritten when the metadata changed, then the pair
added unless present or at the limit. -/
theorem insertType2_spec {e0 : UInt64} {l0 : StdString}
    (hd : db.dups binaryHash = type2Data e0 l0 :: t3s) :
    let ent : Entry := ⟨e0, l0, pairs⟩
    ∃ db' vals, insertType2 cfg db changes binaryHash sourceId fileOffset entropy blockLabel
          (type2Data e0 l0) =
        .ok ((step cfg (sourceId, fileOffset) entropy blockLabel (some ent)).pairs.card, db',
          tally cfg (sourceId, fileOffset) entropy blockLabel (some ent) changes) ∧
      db'.dups = Function.update db.dups binaryHash vals ∧
      Holds cfg vals (some (step cfg (sourceId, fileOffset) entropy blockLabel (some ent))) := by
  intro ent
  have hcount : db.count binaryHash - 1 = pairs.card := by
    simp [Db.count, hd, length_type3s hv0 hmem hsorted.nodup]
  by_cases hsame : entropy = e0 ∧ blockLabel = l0
  · obtain ⟨rfl, rfl⟩ := hsame
    obtain ⟨db', vals, h1, h2, h3⟩ := addType3_spec hs hf hv0 hcard hsorted hmem
      { changes with hashDataDataSame := changes.hashDataDataSame + 1 } entropy blockLabel hd
    refine ⟨db', vals, ?_, h2, h3⟩
    simp [ent, insertType2, decodeType2_type2Data, bind, Except.bind, hcount, h1, tally, SameData]
  · have hlt : ∀ d ∈ t3s, type2Data entropy blockLabel < d := fun d hd' => by
      obtain ⟨q, hq, rfl⟩ := (hmem d).1 hd'
      exact type2Data_lt_type3Data (hv0 q hq).1 _ _
    obtain ⟨D, hput, hD⟩ := Db.put_of_not_mem (db.del binaryHash (type2Data e0 l0)) binaryHash
      (type2Data entropy blockLabel) (by simpa [Db.dups_del, hd] using fun h => lt_irrefl _ (hlt _ h))
    have hD' : D.dups binaryHash = type2Data entropy blockLabel :: t3s := by
      simp [hD, Db.dups_del, hd, orderedInsert_type2 hlt]
    obtain ⟨db', vals, h1, h2, h3⟩ := addType3_spec hs hf hv0 hcard hsorted hmem
      { changes with hashDataDataChanged := changes.hashDataDataChanged + 1 } e0 l0 hD'
    refine ⟨db', vals, ?_, by rw [h2, hD, Db.dups_del, Function.update_idem,
      Function.update_idem], h3⟩
    simp [ent, insertType2, decodeType2_type2Data, bind, Except.bind, hcount, hsame, putType2, hput,
      h1, tally, SameData]

end Type2

/-- `insert` on a hash holding `e`, with a valid call: it returns the source count of
`Entry.step`, raises the counters of `Entry.tally`, and rewrites that hash's records, and no
other, to an encoding of `Entry.step`. -/
theorem insert_spec (hk : binaryHash ≠ []) {e : Option Entry}
    (h : Holds cfg (db.dups binaryHash) e) :
    ∃ db' vals, insert cfg db changes binaryHash sourceId fileOffset entropy blockLabel =
        .ok ((step cfg (sourceId, fileOffset) entropy blockLabel e).pairs.card, db',
          tally cfg (sourceId, fileOffset) entropy blockLabel e changes) ∧
      db'.dups = Function.update db.dups binaryHash vals ∧
      Holds cfg vals (some (step cfg (sourceId, fileOffset) entropy blockLabel e)) := by
  generalize hd : db.dups binaryHash = vals at h
  cases h with
  | absent => exact insert_absent hs hf hk hd
  | @type1 s0 f0 e0 l0 hv0 =>
    obtain ⟨b, rest, hb, hb0⟩ :
        ∃ b rest, type1Data cfg.sectorSize s0 f0 e0 l0 = b :: rest ∧ b ≠ 0 := type1Data_cons hv0.1
    rw [insert_of_head hs hf (hd.trans (by rw [hb])) hk, if_pos hb0, ← hb]
    exact insertType1_spec hs hf hv0 hd
  | type2 hv0 hcard hsorted hmem =>
    rw [insert_of_head hs hf hd hk, if_neg (not_not.2 rfl)]
    exact insertType2_spec hs hf hv0 hcard hsorted hmem hd

end Insert

/-! ## Reads -/

section Reads

variable {cfg : Config} {db : Db} {binaryHash : Bytes} {e : Option Entry}

/-- The `MDB_NEXT` loop of `find` reads the pairs of the hash's Type 3 records and stops at the
next hash. -/
theorem findType3_records {rest : List (Bytes × Bytes)} (hrest : ∀ x ∈ rest, x.1 ≠ binaryHash) :
    ∀ {t3s : List Bytes}, (∀ d ∈ t3s, ∃ p, ValidPair cfg p ∧ d = type3Data cfg.sectorSize p.1 p.2) →
      ∃ S, findType3 cfg.sectorSize binaryHash (t3s.map (binaryHash, ·) ++ rest) = .ok S ∧
        ∀ p, p ∈ S ↔ ValidPair cfg p ∧ type3Data cfg.sectorSize p.1 p.2 ∈ t3s
  | [], _ => by
    refine ⟨∅, ?_, by simp⟩
    cases rest with
    | nil => rfl
    | cons x rest => simp [findType3, hrest x (List.mem_cons_self _ _)]
  | d :: t3s, h => by
    obtain ⟨p, hp, rfl⟩ := h d (List.mem_cons_self _ _)
    obtain ⟨S, hS, hmem⟩ := findType3_records hrest fun d hd => h d (List.mem_cons_of_mem _ hd)
    refine ⟨Insert.insert p S, ?_, fun q => ?_⟩
    · simp [findType3, decodeType3_type3Data cfg.sectorSize_ne_zero hp.2, hS, bind, Except.bind]
    · rw [Finset.mem_insert, hmem, List.mem_cons]
      constructor
      · rintro (rfl | h)
        · exact ⟨hp, .inl rfl⟩
        · exact ⟨h.1, .inr h.2⟩
      · rintro ⟨hq, h | h⟩
        · exact .inl (type3Data_inj hq hp h)
        · exact .inr ⟨hq, h⟩

theorem find_spec (hk : binaryHash ≠ []) (h : Holds cfg (db.dups binaryHash) e) :
    find cfg db binaryHash = .ok (found e) := by
  generalize hd : db.dups binaryHash = vals at h
  cases h with
  | absent => simp [find, hk, hd, Entry.found]
  | @type1 s0 f0 e0 l0 hv0 =>
    obtain ⟨b, rest, hb, hb0⟩ :
        ∃ b rest, type1Data cfg.sectorSize s0 f0 e0 l0 = b :: rest ∧ b ≠ 0 := type1Data_cons hv0.1
    have hdec : decodeType1 cfg.sectorSize (type1Data cfg.sectorSize s0 f0 e0 l0) =
        .ok (s0, f0, e0, l0) := decodeType1_type1Data cfg.sectorSize_ne_zero hv0.2
    rw [hb] at hd hdec
    simp [find, hk, hd, hb0, hdec, bind, Except.bind, Entry.found]
  | @type2 e0 l0 pairs t3s hv hcard hsorted hmem =>
    obtain ⟨rest, hafter, hrest⟩ := afterSetKey_eq binaryHash db.keys_sorted
    have ht3 : ∀ d ∈ t3s, ∃ p, ValidPair cfg p ∧ d = type3Data cfg.sectorSize p.1 p.2 :=
      fun d hd => by
        obtain ⟨p, hp, rfl⟩ := (hmem d).1 hd
        exact ⟨p, hv p hp, rfl⟩
    obtain ⟨S, hS, hSmem⟩ := findType3_records hrest ht3
    have hSeq : S = pairs := Finset.ext fun p => by
      rw [hSmem]
      exact ⟨fun h => (type3Data_mem_iff hv hmem h.1).1 h.2,
        fun h => ⟨hv p h, (type3Data_mem_iff hv hmem (hv p h)).2 h⟩⟩
    have hdec : decodeType2 (type2Data e0 l0) = .ok (e0, l0) := decodeType2_type2Data
    obtain ⟨r, hr⟩ : ∃ r, type2Data e0 l0 = 0 :: r := ⟨_, rfl⟩
    rw [hr] at hd hdec
    rw [show dupsOf binaryHash db.groups = _ from hd] at hafter
    simp [find, hk, hd, hdec, bind, Except.bind, Db.afterSetKey, hafter, hS, hSeq, Entry.found]

theorem findCount_spec (hk : binaryHash ≠ []) (h : Holds cfg (db.dups binaryHash) e) :
    findCount db binaryHash = .ok (sourceCount e) := by
  generalize hd : db.dups binaryHash = vals at h
  cases h with
  | absent => simp [findCount, hk, hd, sourceCount]
  | @type1 s0 f0 e0 l0 hv0 =>
    obtain ⟨b, rest, hb, hb0⟩ :
        ∃ b rest, type1Data cfg.sectorSize s0 f0 e0 l0 = b :: rest ∧ b ≠ 0 := type1Data_cons hv0.1
    rw [hb] at hd
    simp [findCount, hk, hd, hb0, sourceCount]
  | @type2 entropy blockLabel pairs t3s hv hcard hsorted hmem =>
    have hlen := length_type3s hv hmem hsorted.nodup
    obtain ⟨r, hr⟩ : ∃ r, type2Data entropy blockLabel = 0 :: r := ⟨_, rfl⟩
    rw [hr] at hd
    simp [findCount, hk, hd, Db.count, sourceCount, hlen]
    rw [← Finset.card_eq_zero]
    omega

end Reads

end HashData
end HashDb

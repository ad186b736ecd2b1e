import HashDb.HashData.Policy

/-!
# Properties of the hash data store

What the C++ `insert`, `find` and `find_count` guarantee on every store a run of `insert` calls
builds, derived from the refinement (`runInserts_refines`, `find_spec`, `findCount_spec`) and
the policy facts of `Entry.step` and `Entry.tally`:

* the records of every hash are in one of the store's two layouts, and no operation faults;
* `find` returns the metadata of the last accepted call;
* `find_count` agrees with `find`, and `insert` returns the new `find_count`;
* the change counters account for the store and for the calls;
* a repeated `insert` changes nothing;
* the pair limit: the first pairs up to a limit of two or more, but at most two pairs when
  there is no limit, and a one-pair hash at a limit of one takes the pair of a call that
  changes its metadata.
-/

namespace HashDb
namespace HashData

open Lmdb Entry

/-- The pairs `find` returns for a hash; none when it faults. -/
def foundPairs (cfg : Config) (db : Db) (H : Bytes) : Finset (UInt64 × UInt64) :=
  match find cfg db H with
  | .ok r => r.2.2.2
  | .error _ => ∅

/-! ## Two stores to run the results on -/

/-- A limit of two pairs a hash, on sectors of 512 bytes. -/
def sampleConfig : Config := ⟨512, 2, by decide⟩

/-- Calls that leave the hash `[1]` with one pair, a Type 1 record, and the hash `[2]` with two,
a Type 2 record and two Type 3 records. -/
def sampleCalls : List InsertCall :=
  [⟨[1], 1, 0, 7, ⟨[], by decide⟩⟩, ⟨[2], 1, 512, 7, ⟨[], by decide⟩⟩,
    ⟨[2], 2, 1024, 9, ⟨[], by decide⟩⟩]

/-- The store `sampleCalls` build from the empty one. -/
def sampleStore : Db :=
  (runInserts sampleConfig sampleCalls Db.empty .zero).toOption.elim Db.empty Prod.fst

/-- Calls that leave the hashes `[2]` and `[3]` with one pair each. -/
def otherCalls : List InsertCall :=
  [⟨[2], 3, 0, 5, ⟨[], by decide⟩⟩, ⟨[3], 3, 512, 5, ⟨[], by decide⟩⟩]

/-- The store `otherCalls` build from the empty one. -/
def otherStore : Db :=
  (runInserts sampleConfig otherCalls Db.empty .zero).toOption.elim Db.empty Prod.fst

theorem sampleStore_reachable : Reachable sampleConfig sampleStore :=
  ⟨sampleCalls, by decide, _, rfl⟩

theorem otherStore_reachable : Reachable sampleConfig otherStore :=
  ⟨otherCalls, by decide, _, rfl⟩

/-- The sample store holds both layouts: one record for `[1]`, three for `[2]`. -/
example : sampleStore.keys = [[1], [2]] ∧ (sampleStore.dups [1]).length = 1 ∧
    (sampleStore.dups [2]).length = 3 ∧ otherStore.keys = [[2], [3]] := ⟨rfl, rfl, rfl, rfl⟩

section Reachable

variable {cfg : Config} {db : Db}

theorem foundPairs_eq {H : Bytes} {e : Option Entry} (hH : H ≠ []) (h : Holds cfg (db.dups H) e) :
    foundPairs cfg db H = pairsOf e := by
  rw [foundPairs, find_spec hH h]
  cases e <;> rfl

/-- The hashes of a store are those with an entry. -/
theorem keys_toFinset_eq {σ : Store} {T : Finset Bytes} (hr : Refines cfg db σ.entries)
    (hT : ∀ H, H ∈ T ↔ σ.entries H ≠ none) : db.keys.toFinset = T := by
  ext H
  rw [List.mem_toFinset, Db.mem_keys_iff, hT, Ne, Ne, (hr H).eq_nil_iff]

/-- The abstract store with the given counters. -/
theorem refines_with (changes : LmdbChanges) {σ : Store} (h : Refines cfg db σ.entries) :
    Refines cfg db (⟨σ.entries, changes⟩ : Store).entries := h

/-- Valid calls never name the empty hash, so a reachable store holds nothing under it. -/
theorem Reachable.dups_nil (h : Reachable cfg db) : db.dups [] = [] := by
  obtain ⟨calls, hv, changes, hrun⟩ := h
  obtain ⟨db', hrun', hr⟩ := runInserts_refines (refines_empty cfg) hv
  rw [show LmdbChanges.zero = Store.empty.changes from rfl, hrun'] at hrun
  cases hrun
  exact (hr []).eq_nil_iff.2 (run_entries_of_lastAccepted_none (lastAccepted_nil_key hv))

/-- No hash of a reachable store is empty. -/
theorem Reachable.keys_ne_nil (h : Reachable cfg db) : ∀ k ∈ db.keys, k ≠ [] :=
  fun _ hk hk0 => Db.mem_keys_iff.1 hk (hk0 ▸ h.dups_nil)

/-- The records of every hash of a reachable store are in one of the store's layouts, and
`insert`, `find` and `find_count` do not fault on it. -/
theorem reachable_layout_no_fault (cfg : Config) (db : Db) (h : Reachable cfg db) :
    (∀ H, ∃ e, Holds cfg (db.dups H) e) ∧
    (∀ (changes : LmdbChanges) (c : InsertCall), c.Valid →
      ∃ r db' changes', insertCall cfg db changes c = .ok (r, db', changes')) ∧
    (∀ H, H ≠ [] → ∃ res, find cfg db H = .ok res) ∧
    (∀ H, H ≠ [] → ∃ n, findCount db H = .ok n) := by
  obtain ⟨σ, hr⟩ := h.refines
  refine ⟨fun H => ⟨_, hr H⟩, fun changes c hc => ?_, fun H hH => ⟨_, find_spec hH (hr H)⟩,
    fun H hH => ⟨_, findCount_spec hH (hr H)⟩⟩
  obtain ⟨db', h', -⟩ := insertCall_refines (refines_with changes hr) hc
  exact ⟨_, _, _, h'⟩

/-- The layouts, and no fault, on a store holding a Type 1 record and a Type 2 record with two
Type 3 records. -/
theorem reachable_layout_no_fault_two_hashes :
    Reachable sampleConfig sampleStore ∧
    ((∀ H, ∃ e, Holds sampleConfig (sampleStore.dups H) e) ∧
    (∀ (changes : LmdbChanges) (c : InsertCall), c.Valid →
      ∃ r db' changes', insertCall sampleConfig sampleStore changes c = .ok (r, db', changes')) ∧
    (∀ H, H ≠ [] → ∃ res, find sampleConfig sampleStore H = .ok res) ∧
    (∀ H, H ≠ [] → ∃ n, findCount sampleStore H = .ok n)) :=
  ⟨sampleStore_reachable, reachable_layout_no_fault _ _ sampleStore_reachable⟩

/-- `find_count` agrees with the pairs `find` returns, and is 0 exactly when `find` finds
nothing; an accepted `insert` returns the `find_count` of the store it leaves, a rejected one
returns 0 and leaves the store. -/
theorem findCount_agrees_with_find (cfg : Config) (db : Db) (h : Reachable cfg db) :
    (∀ H, H ≠ [] → ∃ found entropy blockLabel pairs,
      find cfg db H = .ok (found, entropy, blockLabel, pairs) ∧
      findCount db H = .ok pairs.card ∧ (pairs.card = 0 ↔ found = false)) ∧
    (∀ (changes : LmdbChanges) (c : InsertCall), c.Valid → c.Accepted cfg →
      ∃ r db' changes', insertCall cfg db changes c = .ok (r, db', changes') ∧
        findCount db' c.binaryHash = .ok r) ∧
    (∀ (changes : LmdbChanges) (c : InsertCall), c.Valid → ¬c.Accepted cfg →
      ∃ changes', insertCall cfg db changes c = .ok (0, db, changes')) := by
  obtain ⟨σ, hr⟩ := h.refines
  refine ⟨fun H hH => ?_, fun changes c hc hf => ?_, fun changes c hc hf =>
    ⟨_, insert_reject hc.2 hc.1 hf⟩⟩
  · rw [find_spec hH (hr H), findCount_spec hH (hr H)]
    cases he : σ.entries H with
    | none => exact ⟨_, _, _, _, rfl, rfl, by simp⟩
    | some ent =>
      have hpos := (he ▸ hr H).card_pos
      exact ⟨_, _, _, _, rfl, rfl, fun h0 => absurd h0 (by omega), fun h => by cases h⟩
  · obtain ⟨db', h', hr'⟩ := insertCall_refines (refines_with changes hr) hc
    refine ⟨_, _, _, h', ?_⟩
    rw [findCount_spec hc.1 (hr' c.binaryHash)]
    simp [Store.insert, hf, sourceCount]

/-- The agreement on a store holding a Type 1 record and a Type 2 record with two Type 3
records. -/
theorem findCount_agrees_with_find_two_hashes :
    Reachable sampleConfig sampleStore ∧
    ((∀ H, H ≠ [] → ∃ found entropy blockLabel pairs,
      find sampleConfig sampleStore H = .ok (found, entropy, blockLabel, pairs) ∧
      findCount sampleStore H = .ok pairs.card ∧ (pairs.card = 0 ↔ found = false)) ∧
    (∀ (changes : LmdbChanges) (c : InsertCall), c.Valid → c.Accepted sampleConfig →
      ∃ r db' changes', insertCall sampleConfig sampleStore changes c = .ok (r, db', changes') ∧
        findCount db' c.binaryHash = .ok r) ∧
    (∀ (changes : LmdbChanges) (c : InsertCall), c.Valid → ¬c.Accepted sampleConfig →
      ∃ changes',
        insertCall sampleConfig sampleStore changes c = .ok (0, sampleStore, changes'))) :=
  ⟨sampleStore_reachable, findCount_agrees_with_find _ _ sampleStore_reachable⟩

/-- A second identical `insert` leaves the records of every hash as the first left them. -/
theorem insert_idempotent (cfg : Config) (db : Db) (h : Reachable cfg db)
    (changes : LmdbChanges) (c : InsertCall) (hc : c.Valid) :
    ∃ r db1 changes1, insertCall cfg db changes c = .ok (r, db1, changes1) ∧
      ∃ r' db2 changes2, insertCall cfg db1 changes1 c = .ok (r', db2, changes2) ∧
        db2.dups = db1.dups := by
  obtain ⟨σ, hr⟩ := h.refines
  obtain ⟨db1, h1, hr1⟩ := insertCall_refines (refines_with changes hr) hc
  obtain ⟨db2, h2, hr2⟩ := insertCall_refines hr1 hc
  refine ⟨_, _, _, h1, _, _, _, h2, funext fun H => (hr2 H).unique ?_⟩
  have hsame : (Store.insert cfg (Store.insert cfg ⟨σ.entries, changes⟩ c).2 c).2.entries =
      (Store.insert cfg ⟨σ.entries, changes⟩ c).2.entries := by
    by_cases hf : c.Accepted cfg
    · simp [Store.insert, hf, step_step]
    · simp [Store.insert, hf]
  rw [hsame]
  exact hr1 H

/-- A second pair for the Type 1 hash of the sample store, inserted twice: the first call
turns its record into a Type 2 record and two Type 3 records, the second changes nothing. -/
theorem insert_idempotent_promoted :
    Reachable sampleConfig sampleStore ∧ (⟨[1], 2, 512, 9, ⟨[], by decide⟩⟩ : InsertCall).Valid ∧
    ∃ r db1 changes1, insertCall sampleConfig sampleStore LmdbChanges.zero
        ⟨[1], 2, 512, 9, ⟨[], by decide⟩⟩ = .ok (r, db1, changes1) ∧
      ∃ r' db2 changes2, insertCall sampleConfig db1 changes1 ⟨[1], 2, 512, 9, ⟨[], by decide⟩⟩ =
          .ok (r', db2, changes2) ∧ db2.dups = db1.dups :=
  ⟨sampleStore_reachable, by decide,
    insert_idempotent _ _ sampleStore_reachable _ _ (by decide)⟩

end Reachable

/-! ## Runs from the empty store -/

section Runs

/-- After any run of valid calls, `find` returns for each hash the metadata of the last call
accepted for it. -/
theorem find_metadata_last_accepted (cfg : Config) (calls : List InsertCall)
    (hv : ∀ c ∈ calls, c.Valid) :
    ∃ db changes, runInserts cfg calls Db.empty LmdbChanges.zero = .ok (db, changes) ∧
      ∀ H c, lastAccepted cfg H calls = some c →
        ∃ pairs, find cfg db H = .ok (true, c.entropy, c.blockLabel, pairs) := by
  obtain ⟨db, hrun, hr⟩ := runInserts_refines (refines_empty cfg) hv
  refine ⟨db, _, hrun, fun H c hc => ?_⟩
  obtain ⟨hmem, rfl, -⟩ := lastAccepted_spec hc
  obtain ⟨ent, he, hent, hlabel⟩ := run_entries_of_lastAccepted_some (σ := Store.empty) hc
  refine ⟨ent.pairs, ?_⟩
  rw [find_spec (hv c hmem).1 (hr _), he, found, hent, hlabel]

/-- Two sources for one hash, then a rejected call for another. -/
theorem find_metadata_last_accepted_three :
    (∀ c ∈ ([⟨[0xaa], 1, 0, 7, ⟨[87], by decide⟩⟩, ⟨[0xaa], 2, 512, 7, ⟨[87], by decide⟩⟩, ⟨[0xbb], 1, 1, 7, ⟨[87], by decide⟩⟩] : List InsertCall), c.Valid) ∧
    ∃ db changes, runInserts ⟨512, 0, by decide⟩ [⟨[0xaa], 1, 0, 7, ⟨[87], by decide⟩⟩, ⟨[0xaa], 2, 512, 7, ⟨[87], by decide⟩⟩, ⟨[0xbb], 1, 1, 7, ⟨[87], by decide⟩⟩] Db.empty LmdbChanges.zero = .ok (db, changes) ∧
      ∀ H c, lastAccepted ⟨512, 0, by decide⟩ H [⟨[0xaa], 1, 0, 7, ⟨[87], by decide⟩⟩, ⟨[0xaa], 2, 512, 7, ⟨[87], by decide⟩⟩, ⟨[0xbb], 1, 1, 7, ⟨[87], by decide⟩⟩] = some c →
        ∃ pairs, find ⟨512, 0, by decide⟩ db H = .ok (true, c.entropy, c.blockLabel, pairs) :=
  ⟨by decide, find_metadata_last_accepted _ _ (by decide)⟩

/-- After any run of valid calls from the empty store and zeroed counters, `data_inserted`
counts the hashes, `source_inserted` the pairs `find` returns for them, the data and the source
counters each sum to the accepted calls and `invalid_file_offset` counts the rejected ones; a
rejected call leaves the store as it is. -/
theorem counters_account (cfg : Config) (calls : List InsertCall) (hv : ∀ c ∈ calls, c.Valid) :
    ∃ db changes, runInserts cfg calls Db.empty LmdbChanges.zero = .ok (db, changes) ∧
      changes.hashDataDataInserted = db.keys.length ∧
      changes.hashDataSourceInserted = (db.keys.map fun H => (foundPairs cfg db H).card).sum ∧
      changes.hashDataDataInserted + changes.hashDataDataSame + changes.hashDataDataChanged =
        (calls.filter (·.Accepted cfg)).length ∧
      changes.hashDataSourceInserted + changes.hashDataSourceAlreadyPresent +
        changes.hashDataSourceAtMax = (calls.filter (·.Accepted cfg)).length ∧
      changes.hashDataInvalidFileOffset = (calls.filter fun c => ¬c.Accepted cfg).length ∧
      ∀ c ∈ calls, ¬c.Accepted cfg → ∀ db' changes', insertCall cfg db' changes' c =
        .ok (0, db', { changes' with
          hashDataInvalidFileOffset := changes'.hashDataInvalidFileOffset + 1 }) := by
  obtain ⟨db, hrun, hr⟩ := runInserts_refines (refines_empty cfg) hv
  obtain ⟨T, hc⟩ := counted_empty.run cfg calls
  have hkeys := keys_toFinset_eq hr hc.mem_keys
  have hnodup : db.keys.Nodup := db.keys_sorted.nodup
  have hnil : (Store.empty.run cfg calls).entries [] = none :=
    run_entries_of_lastAccepted_none (lastAccepted_nil_key hv)
  refine ⟨db, _, hrun, ?_, ?_, by simpa using hc.data_sum, by simpa using hc.source_sum,
    by simpa using hc.invalid, fun c hmem hf db' changes' =>
      insert_reject (hv c hmem).2 (hv c hmem).1 hf⟩
  · rw [hc.dataInserted, ← hkeys, List.toFinset_card_of_nodup hnodup]
  · rw [hc.sourceInserted, ← hkeys, List.sum_toFinset _ hnodup]
    refine congrArg List.sum (List.map_congr_left fun H hH => ?_)
    have hH' : H ≠ [] := by
      rintro rfl
      exact (hc.mem_keys []).1 (hkeys ▸ List.mem_toFinset.2 hH) hnil
    rw [foundPairs_eq hH' (hr H)]
    cases σH : (Store.empty.run cfg calls).entries H <;> rfl

/-- Two sources for one hash, then a rejected call for another. -/
theorem counters_account_three :
    (∀ c ∈ ([⟨[0xaa], 1, 0, 7, ⟨[87], by decide⟩⟩, ⟨[0xaa], 2, 512, 7, ⟨[87], by decide⟩⟩, ⟨[0xbb], 1, 1, 7, ⟨[87], by decide⟩⟩] : List InsertCall), c.Valid) ∧
    ∃ db changes, runInserts ⟨512, 0, by decide⟩ [⟨[0xaa], 1, 0, 7, ⟨[87], by decide⟩⟩, ⟨[0xaa], 2, 512, 7, ⟨[87], by decide⟩⟩, ⟨[0xbb], 1, 1, 7, ⟨[87], by decide⟩⟩] Db.empty LmdbChanges.zero = .ok (db, changes) ∧
      changes.hashDataDataInserted = db.keys.length ∧
      changes.hashDataSourceInserted =
        (db.keys.map fun H => (foundPairs ⟨512, 0, by decide⟩ db H).card).sum ∧
      changes.hashDataDataInserted + changes.hashDataDataSame + changes.hashDataDataChanged =
        (([⟨[0xaa], 1, 0, 7, ⟨[87], by decide⟩⟩, ⟨[0xaa], 2, 512, 7, ⟨[87], by decide⟩⟩, ⟨[0xbb], 1, 1, 7, ⟨[87], by decide⟩⟩] : List InsertCall).filter (·.Accepted ⟨512, 0, by decide⟩)).length ∧
      changes.hashDataSourceInserted + changes.hashDataSourceAlreadyPresent +
        changes.hashDataSourceAtMax =
          (([⟨[0xaa], 1, 0, 7, ⟨[87], by decide⟩⟩, ⟨[0xaa], 2, 512, 7, ⟨[87], by decide⟩⟩, ⟨[0xbb], 1, 1, 7, ⟨[87], by decide⟩⟩] : List InsertCall).filter (·.Accepted ⟨512, 0, by decide⟩)).length ∧
      changes.hashDataInvalidFileOffset =
        (([⟨[0xaa], 1, 0, 7, ⟨[87], by decide⟩⟩, ⟨[0xaa], 2, 512, 7, ⟨[87], by decide⟩⟩, ⟨[0xbb], 1, 1, 7, ⟨[87], by decide⟩⟩] : List InsertCall).filter fun c => ¬c.Accepted ⟨512, 0, by decide⟩).length ∧
      ∀ c ∈ ([⟨[0xaa], 1, 0, 7, ⟨[87], by decide⟩⟩, ⟨[0xaa], 2, 512, 7, ⟨[87], by decide⟩⟩, ⟨[0xbb], 1, 1, 7, ⟨[87], by decide⟩⟩] : List InsertCall), ¬c.Accepted ⟨512, 0, by decide⟩ → ∀ db' changes',
        insertCall ⟨512, 0, by decide⟩ db' changes' c = .ok (0, db', { changes' with
          hashDataInvalidFileOffset := changes'.hashDataInvalidFileOffset + 1 }) :=
  ⟨by decide, counters_account _ _ (by decide)⟩

/-! ### The pair limit -/

/-- With a limit of two or more, `find` returns for each hash the first distinct pairs the
accepted calls offered for it, up to the limit: the spec's policy. -/
theorem find_keeps_first_pairs (cfg : Config) (hcap : 2 ≤ cfg.maxIdOffsetPairs.toNat)
    (calls : List InsertCall) (hv : ∀ c ∈ calls, c.Valid) :
    ∃ db changes, runInserts cfg calls Db.empty LmdbChanges.zero = .ok (db, changes) ∧
      ∀ H, H ≠ [] →
        foundPairs cfg db H = keptPairs cfg.maxIdOffsetPairs.toNat ∅ (offeredPairs cfg H calls) := by
  obtain ⟨db, hrun, hr⟩ := runInserts_refines (refines_empty cfg) hv
  exact ⟨db, _, hrun, fun H hH => by
    rw [foundPairs_eq hH (hr H), run_pairs_of_two_le hcap H calls Store.empty]; rfl⟩

/-- A limit of two, with two sources for one hash and a rejected call. -/
theorem find_keeps_first_pairs_three :
    2 ≤ (⟨512, 2, by decide⟩ : Config).maxIdOffsetPairs.toNat ∧
    (∀ c ∈ ([⟨[0xaa], 1, 0, 7, ⟨[87], by decide⟩⟩, ⟨[0xaa], 2, 512, 7, ⟨[87], by decide⟩⟩, ⟨[0xbb], 1, 1, 7, ⟨[87], by decide⟩⟩] : List InsertCall), c.Valid) ∧
    ∃ db changes, runInserts ⟨512, 2, by decide⟩ [⟨[0xaa], 1, 0, 7, ⟨[87], by decide⟩⟩, ⟨[0xaa], 2, 512, 7, ⟨[87], by decide⟩⟩, ⟨[0xbb], 1, 1, 7, ⟨[87], by decide⟩⟩] Db.empty LmdbChanges.zero =
        .ok (db, changes) ∧
      ∀ H, H ≠ [] → foundPairs ⟨512, 2, by decide⟩ db H =
        keptPairs 2 ∅ (offeredPairs ⟨512, 2, by decide⟩ H [⟨[0xaa], 1, 0, 7, ⟨[87], by decide⟩⟩, ⟨[0xaa], 2, 512, 7, ⟨[87], by decide⟩⟩, ⟨[0xbb], 1, 1, 7, ⟨[87], by decide⟩⟩]) :=
  ⟨by decide, by decide, find_keeps_first_pairs _ (by decide) _ (by decide)⟩

/-- With no limit (`max_id_offset_pairs = 0`), no hash ever holds more than two pairs: the
Type 2 branch's `count >= max_id_offset_pairs` holds for every count. -/
theorem find_at_most_two_pairs_of_no_limit (cfg : Config) (hcap : cfg.maxIdOffsetPairs = 0)
    (calls : List InsertCall) (hv : ∀ c ∈ calls, c.Valid) :
    ∃ db changes, runInserts cfg calls Db.empty LmdbChanges.zero = .ok (db, changes) ∧
      ∀ H, (foundPairs cfg db H).card ≤ 2 := by
  obtain ⟨db, hrun, hr⟩ := runInserts_refines (refines_empty cfg) hv
  refine ⟨db, _, hrun, fun H => ?_⟩
  by_cases hH : H = []
  · simp [foundPairs, find, hH]
  · rw [foundPairs_eq hH (hr H)]
    exact run_card_le_two_of_zero hcap H calls Store.empty (by simp [Store.empty, pairsOf])

/-- No limit, with two sources for one hash and a rejected call. -/
theorem find_at_most_two_pairs_three :
    (⟨512, 0, by decide⟩ : Config).maxIdOffsetPairs = 0 ∧
    (∀ c ∈ ([⟨[0xaa], 1, 0, 7, ⟨[87], by decide⟩⟩, ⟨[0xaa], 2, 512, 7, ⟨[87], by decide⟩⟩, ⟨[0xbb], 1, 1, 7, ⟨[87], by decide⟩⟩] : List InsertCall), c.Valid) ∧
    ∃ db changes, runInserts ⟨512, 0, by decide⟩ [⟨[0xaa], 1, 0, 7, ⟨[87], by decide⟩⟩, ⟨[0xaa], 2, 512, 7, ⟨[87], by decide⟩⟩, ⟨[0xbb], 1, 1, 7, ⟨[87], by decide⟩⟩] Db.empty LmdbChanges.zero =
        .ok (db, changes) ∧
      ∀ H, (foundPairs ⟨512, 0, by decide⟩ db H).card ≤ 2 :=
  ⟨rfl, by decide, find_at_most_two_pairs_of_no_limit _ rfl _ (by decide)⟩

/-- With no limit, a third distinct pair offered for a hash is refused and tallied at max; with
a limit of one, a second pair offered with new metadata replaces the first. -/
theorem pair_limit_failing_runs :
    ((runInserts ⟨512, 0, by decide⟩
        [⟨[0xaa], 1, 0, 7, ⟨[87], by decide⟩⟩, ⟨[0xaa], 2, 512, 7, ⟨[87], by decide⟩⟩,
          ⟨[0xaa], 3, 1024, 7, ⟨[87], by decide⟩⟩] Db.empty LmdbChanges.zero).map
        fun r => (find ⟨512, 0, by decide⟩ r.1 [0xaa], r.2.hashDataSourceAtMax)) =
      .ok (.ok (true, 7, ⟨[87], by decide⟩, {(1, 0), (2, 512)}), 1) ∧
    ((runInserts ⟨512, 1, by decide⟩
        [⟨[0xaa], 1, 0, 7, ⟨[87], by decide⟩⟩, ⟨[0xaa], 2, 512, 9, ⟨[88], by decide⟩⟩]
        Db.empty LmdbChanges.zero).map fun r => find ⟨512, 1, by decide⟩ r.1 [0xaa]) =
      .ok (.ok (true, 9, ⟨[88], by decide⟩, {(2, 512)})) := by
  decide

end Runs

end HashData
end HashDb

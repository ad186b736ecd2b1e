import HashDb.HashData.Record
import HashDb.Lmdb.Db
import Mathlib.Data.Finset.Basic

/-!
# `lmdb_hash_data_manager_t`

The store's operations as the C++ computes them, over the LMDB model of `Lmdb.Db`:

* `insert`: the upsert with its five paths (new key; Type 1 unchanged, rewritten or promoted
  to Type 2 with two Type 3 records; Type 2 updated), its tallies, and the source count it
  returns;
* `find` and `find_count`, which dispatch on the first byte of the first record of a hash;
* `find_begin` and `find_next`, the key-ordered walk the commands drive.

Each `assert(0)` the C++ reaches is an `.error` naming its site. The mutex, the transaction and
the map growth around each call do not change what the call computes and are left out.
-/

namespace HashDb
namespace HashData

open Lmdb

/-- Modelled from the spec: `lmdb_changes_t` (lmdb_changes.hpp) is not in src/. These are its
hash data counters, the ones `insert` increments (§7, "policy" outcomes). -/
structure LmdbChanges where
  hashDataDataInserted : Nat
  hashDataDataSame : Nat
  hashDataDataChanged : Nat
  hashDataSourceInserted : Nat
  hashDataSourceAlreadyPresent : Nat
  hashDataSourceAtMax : Nat
  hashDataInvalidFileOffset : Nat
  deriving DecidableEq, Repr

/-- A zeroed `lmdb_changes_t`. -/
def LmdbChanges.zero : LmdbChanges := ⟨0, 0, 0, 0, 0, 0, 0⟩

/-- `put_type1`: the offset must be on a sector boundary; then `mdb_put` of the Type 1 record
with `MDB_NODUPDATA` (`none` is `MDB_KEYEXIST`). -/
def putType1 (cfg : Config) (db : Db) (key : Bytes) (sourceId fileOffset entropy : UInt64)
    (blockLabel : StdString) : Except Fault (Option Db) :=
  if fileOffset % cfg.sectorSize.toUInt64 ≠ 0 then .error .badFileOffset
  else .ok (db.put key (type1Data cfg.sectorSize sourceId fileOffset entropy blockLabel))

/-- `put_type2`: `mdb_put` of the Type 2 record. -/
def putType2 (db : Db) (key : Bytes) (entropy : UInt64) (blockLabel : StdString) : Option Db :=
  db.put key (type2Data entropy blockLabel)

/-- `put_type3`: the offset must be on a sector boundary; then `mdb_put` of the Type 3 record. -/
def putType3 (cfg : Config) (db : Db) (key : Bytes) (sourceId fileOffset : UInt64) :
    Except Fault (Option Db) :=
  if fileOffset % cfg.sectorSize.toUInt64 ≠ 0 then .error .badFileOffset
  else .ok (db.put key (type3Data cfg.sectorSize sourceId fileOffset))

/-! ## `insert` -/

section Insert

variable (cfg : Config) (db : Db) (changes : LmdbChanges) (binaryHash : Bytes)
  (sourceId fileOffset entropy : UInt64) (blockLabel : StdString)

/-- The branch of `insert` for a hash held as the Type 1 record `data`. -/
def insertType1 (data : Bytes) : Except Fault (Nat × Db × LmdbChanges) := do
  let (pSourceId, pFileOffset, pEntropy, pBlockLabel) ← decodeType1 cfg.sectorSize data
  let sourceSame := sourceId = pSourceId ∧ fileOffset = pFileOffset
  let dataSame := entropy = pEntropy ∧ blockLabel = pBlockLabel
  let atMax := cfg.maxIdOffsetPairs ≠ 0 ∧ 1 ≥ cfg.maxIdOffsetPairs
  let changes := if dataSame then { changes with hashDataDataSame := changes.hashDataDataSame + 1 }
    else { changes with hashDataDataChanged := changes.hashDataDataChanged + 1 }
  let changes :=
    if atMax then { changes with hashDataSourceAtMax := changes.hashDataSourceAtMax + 1 }
    else if sourceSame then
      { changes with hashDataSourceAlreadyPresent := changes.hashDataSourceAlreadyPresent + 1 }
    else { changes with hashDataSourceInserted := changes.hashDataSourceInserted + 1 }
  if (sourceSame ∨ atMax) ∧ dataSame then
    -- no change
    .ok (1, db, changes)
  else if (sourceSame ∨ atMax) ∧ ¬dataSame then
    -- source same, data changed, so replace Type 1
    let db := db.del binaryHash data
    let some db ← putType1 cfg db binaryHash sourceId fileOffset entropy blockLabel
      | .error .lmdbError
    .ok (1, db, changes)
  else
    -- add new source so remove Type 1 and add Type 2 and Type 3
    let db := db.del binaryHash data
    let some db := putType2 db binaryHash entropy blockLabel | .error .lmdbError
    let some db ← putType3 cfg db binaryHash pSourceId pFileOffset | .error .lmdbError
    let some db ← putType3 cfg db binaryHash sourceId fileOffset | .error .lmdbError
    .ok (2, db, changes)

/-- The end of the Type 2 branch: add the source unless the hash holds `count` pairs, at the
limit; `MDB_KEYEXIST` is a source already present. -/
def addType3 (count : Nat) (db : Db) (changes : LmdbChanges) :
    Except Fault (Nat × Db × LmdbChanges) :=
  if count ≥ cfg.maxIdOffsetPairs.toNat then
    .ok (count, db, { changes with hashDataSourceAtMax := changes.hashDataSourceAtMax + 1 })
  else do
    match ← putType3 cfg db binaryHash sourceId fileOffset with
    | some db =>
      .ok (count + 1, db,
        { changes with hashDataSourceInserted := changes.hashDataSourceInserted + 1 })
    | none =>
      .ok (count, db,
        { changes with hashDataSourceAlreadyPresent := changes.hashDataSourceAlreadyPresent + 1 })

/-- The branch of `insert` for a hash whose first record is the Type 2 record `data`. -/
def insertType2 (data : Bytes) : Except Fault (Nat × Db × LmdbChanges) := do
  -- get count before add, subtracting the one Type 2 entry
  let count := db.count binaryHash - 1
  let (pEntropy, pBlockLabel) ← decodeType2 data
  if entropy = pEntropy ∧ blockLabel = pBlockLabel then
    addType3 cfg binaryHash sourceId fileOffset count db
      { changes with hashDataDataSame := changes.hashDataDataSame + 1 }
  else
    -- change the Type 2 entry to contain the changed data; its return code is not read
    let db' := db.del binaryHash data
    let db' := (putType2 db' binaryHash entropy blockLabel).getD db'
    addType3 cfg binaryHash sourceId fileOffset count db'
      { changes with hashDataDataChanged := changes.hashDataDataChanged + 1 }

/-- `insert(binary_hash, source_id, file_offset, entropy, block_label, changes)`: the source
count returned, and the store and counters after the call. -/
def insert : Except Fault (Nat × Db × LmdbChanges) :=
  if sourceId = 0 then .error .sourceIdZero
  else if binaryHash = [] then .error .emptyKey
  else if fileOffset % cfg.sectorSize.toUInt64 ≠ 0 then
    -- reject invalid file_offset
    .ok (0, db, { changes with hashDataInvalidFileOffset := changes.hashDataInvalidFileOffset + 1 })
  else
    -- `MDB_SET_KEY`: the first record of the hash
    match (db.dups binaryHash).head? with
    | none => do
      let some db ← putType1 cfg db binaryHash sourceId fileOffset entropy blockLabel
        | .error .lmdbError
      .ok (1, db, { changes with
        hashDataDataInserted := changes.hashDataDataInserted + 1
        hashDataSourceInserted := changes.hashDataSourceInserted + 1 })
    | some [] => .error .emptyData
    | some (b :: rest) =>
      if b ≠ 0 then
        insertType1 cfg db changes binaryHash sourceId fileOffset entropy blockLabel (b :: rest)
      else insertType2 cfg db changes binaryHash sourceId fileOffset entropy blockLabel (b :: rest)

end Insert

/-! ## Reads -/

/-- The loop of `find` over the Type 3 records: `MDB_NEXT` while the key is still the hash,
each record's pair added to the set. -/
def findType3 (sectorSize : UInt32) (binaryHash : Bytes) :
    List (Bytes × Bytes) → Except Fault (Finset (UInt64 × UInt64))
  | [] => .ok ∅
  | (key, data) :: rest =>
    if key = binaryHash then do
      let pair ← decodeType3 sectorSize data
      let pairs ← findType3 sectorSize binaryHash rest
      .ok (Insert.insert pair pairs)
    else .ok ∅

/-- What `find` returns, compared as a whole. -/
instance : DecidableEq (Bool × UInt64 × StdString × Finset (UInt64 × UInt64)) := inferInstance

/-- `find(binary_hash, entropy, block_label, pairs)`: `false` with `0`, `""` and no pairs when
the hash is absent; else `true`, the metadata and the source pairs. -/
def find (cfg : Config) (db : Db) (binaryHash : Bytes) :
    Except Fault (Bool × UInt64 × StdString × Finset (UInt64 × UInt64)) :=
  if binaryHash = [] then .error .emptyKey
  else
    match (db.dups binaryHash).head? with
    | none => .ok (false, 0, ⟨[], by decide⟩, ∅)
    | some [] => .error .emptyData
    | some (b :: rest) =>
      if b ≠ 0 then do
        -- existing entry is Type 1 so read it and be done
        let (pSourceId, pFileOffset, entropy, blockLabel) ← decodeType1 cfg.sectorSize (b :: rest)
        .ok (true, entropy, blockLabel, {(pSourceId, pFileOffset)})
      else do
        -- existing entry is Type 2 so read all entries for this hash
        let (entropy, blockLabel) ← decodeType2 (b :: rest)
        let pairs ← findType3 cfg.sectorSize binaryHash (db.afterSetKey binaryHash)
        .ok (true, entropy, blockLabel, pairs)

/-- `find_count(binary_hash)`: 0 when absent, 1 for a Type 1 record, else the cursor count less
the Type 2 record. -/
def findCount (db : Db) (binaryHash : Bytes) : Except Fault Nat :=
  if binaryHash = [] then .error .emptyKey
  else
    match (db.dups binaryHash).head? with
    | none => .ok 0
    | some [] => .error .emptyData
    | some (b :: _) =>
      if b ≠ 0 then .ok 1
      else if db.count binaryHash = 1 then .error .countOne
      else .ok (db.count binaryHash - 1)

/-- `find_begin()`: the first hash, or `(false, "")`. -/
def findBegin (db : Db) : Bool × Bytes :=
  match db.first with
  | some key => (true, key)
  | none => (false, [])

/-- `find_next(last_binary_hash)`: the hash after `last_binary_hash`, or `(false, "")`; the
last hash must be given and must exist. -/
def findNext (db : Db) (lastBinaryHash : Bytes) : Except Fault (Bool × Bytes) :=
  if lastBinaryHash = [] then .error .alreadyAtEnd
  else if lastBinaryHash ∉ db.keys then .error .lmdbError
  else
    match db.nextKey lastBinaryHash with
    | some key => .ok (true, key)
    | none => .ok (false, [])

/-- `size()`: `lmdb_helper::size(env)`, the number of records (not of hashes). -/
def size (db : Db) : Nat := db.size

end HashData
end HashDb

import HashDb.HashData.Refinement

/-!
# Runs of `insert`

The store is built by successive `insert` calls (the import and the set-algebra commands call
it in a loop). This file has:

* `runInserts`: the C++ store and counters after a list of calls, from given ones; the first
  fault ends the run;
* `Store`: the abstract store, an entry per hash and the counters, and `Store.insert`, the
  call on it (`Entry.step`, `Entry.tally`, or the rejected offset);
* `runInserts_refines`: a run of valid calls raises none of the faults of `insert`, and the
  store it builds encodes the abstract store's entries, with the abstract store's counters;
* `Reachable`: the stores runs of valid calls build from the empty store;
* `find_reads_abstract_store`: what `find` and `find_count` read from the store a run builds
  is what the abstract store holds.

A fault here is one `insert` raises itself: LMDB's own failures of a put (a full map, an item
over `MDB_DUPSORT`'s size limit) are not modelled, and the growth of the map is studied apart
in `Lmdb.Grow`. "Never faults" below is to be read with that.
-/

namespace HashDb
namespace HashData

open Lmdb Entry

/-- The arguments of one `insert` call. -/
structure InsertCall where
  binaryHash : Bytes
  sourceId : UInt64
  fileOffset : UInt64
  entropy : UInt64
  blockLabel : StdString
  deriving DecidableEq

namespace InsertCall

/-- The call passes `insert`'s asserts: a nonempty hash and `source_id ≥ 1`. -/
def Valid (c : InsertCall) : Prop := c.binaryHash ≠ [] ∧ c.sourceId ≠ 0

instance (c : InsertCall) : Decidable c.Valid := inferInstanceAs (Decidable (_ ∧ _))

/-- `insert` accepts the call: its offset is a multiple of the sector size. -/
def Accepted (cfg : Config) (c : InsertCall) : Prop := c.fileOffset % cfg.sectorSize.toUInt64 = 0

instance (cfg : Config) (c : InsertCall) : Decidable (c.Accepted cfg) :=
  inferInstanceAs (Decidable (_ = _))

/-- The source pair the call offers. -/
def pair (c : InsertCall) : UInt64 × UInt64 := (c.sourceId, c.fileOffset)

end InsertCall

/-- `insert` on the arguments of a call. The `maybe_grow` it runs first is modelled apart
(`Lmdb.maybeGrow`), and its puts fail only as `Lmdb.Db.put` does. -/
def insertCall (cfg : Config) (db : Db) (changes : LmdbChanges) (c : InsertCall) :
    Except Fault (Nat × Db × LmdbChanges) :=
  insert cfg db changes c.binaryHash c.sourceId c.fileOffset c.entropy c.blockLabel

/-- The store and counters after the calls, in order; the first fault ends the run. -/
def runInserts (cfg : Config) : List InsertCall → Db → LmdbChanges → Except Fault (Db × LmdbChanges)
  | [], db, changes => .ok (db, changes)
  | c :: cs, db, changes => do
    let (_, db, changes) ← insertCall cfg db changes c
    runInserts cfg cs db changes

/-! ## The abstract store -/

/-- The store as `find` reads it, hash by hash, with the counters. -/
@[ext]
structure Store where
  entries : Bytes → Option Entry
  changes : LmdbChanges

namespace Store

/-- No hash, zeroed counters. -/
def empty : Store := ⟨fun _ => none, LmdbChanges.zero⟩

/-- `insert` on the abstract store: the count it returns and the store after it. -/
def insert (cfg : Config) (σ : Store) (c : InsertCall) : Nat × Store :=
  if c.Accepted cfg then
    let ent := step cfg c.pair c.entropy c.blockLabel (σ.entries c.binaryHash)
    (ent.pairs.card, ⟨Function.update σ.entries c.binaryHash (some ent),
      tally cfg c.pair c.entropy c.blockLabel (σ.entries c.binaryHash) σ.changes⟩)
  else
    (0, ⟨σ.entries, { σ.changes with
      hashDataInvalidFileOffset := σ.changes.hashDataInvalidFileOffset + 1 }⟩)

/-- The abstract store after the calls, in order. -/
def run (cfg : Config) : Store → List InsertCall → Store
  | σ, [] => σ
  | σ, c :: cs => run cfg (σ.insert cfg c).2 cs

@[simp] theorem run_nil (cfg : Config) (σ : Store) : σ.run cfg [] = σ := rfl

@[simp] theorem run_cons (cfg : Config) (σ : Store) (c : InsertCall) (cs : List InsertCall) :
    σ.run cfg (c :: cs) = (σ.insert cfg c).2.run cfg cs := rfl

/-- A call only changes the entry of its own hash. -/
theorem insert_entries_of_ne (cfg : Config) (σ : Store) {c : InsertCall} {H : Bytes}
    (h : H ≠ c.binaryHash) : (σ.insert cfg c).2.entries H = σ.entries H := by
  unfold insert; split_ifs <;> simp [Function.update_noteq h]

end Store

/-! ## Refinement -/

/-- The records of every hash encode the abstract store's entry for it. -/
def Refines (cfg : Config) (db : Db) (entries : Bytes → Option Entry) : Prop :=
  ∀ H, Holds cfg (db.dups H) (entries H)

theorem refines_empty (cfg : Config) : Refines cfg Db.empty Store.empty.entries :=
  fun _ => Holds.absent

section Refinement

variable {cfg : Config} {db : Db} {σ : Store} {c : InsertCall}

/-- One valid call: the C++ `insert` computes the abstract one. -/
theorem insertCall_refines (h : Refines cfg db σ.entries) (hc : c.Valid) :
    ∃ db', insertCall cfg db σ.changes c =
        .ok ((σ.insert cfg c).1, db', (σ.insert cfg c).2.changes) ∧
      Refines cfg db' (σ.insert cfg c).2.entries := by
  by_cases hf : c.Accepted cfg
  · obtain ⟨db', vals, heq, hdups, hh⟩ := insert_spec hc.2 hf hc.1 (h c.binaryHash)
    refine ⟨db', ?_, fun K => ?_⟩
    · simp only [insertCall, Store.insert, if_pos hf]
      exact heq
    rw [hdups]
    by_cases hK : K = c.binaryHash
    · subst hK; simpa [Store.insert, hf, InsertCall.pair] using hh
    · simpa [Store.insert, hf, Function.update_noteq hK] using h K
  · exact ⟨db, by simp [insertCall, Store.insert, hf, insert_reject hc.2 hc.1 hf], by
      simpa [Store.insert, hf] using h⟩

/-- A run of valid calls never faults, and builds the abstract store's entries and counters. -/
theorem runInserts_refines {calls : List InsertCall} (h : Refines cfg db σ.entries)
    (hv : ∀ c ∈ calls, c.Valid) :
    ∃ db', runInserts cfg calls db σ.changes = .ok (db', (σ.run cfg calls).changes) ∧
      Refines cfg db' (σ.run cfg calls).entries := by
  induction calls generalizing db σ with
  | nil => exact ⟨db, rfl, h⟩
  | cons c cs ih =>
    obtain ⟨db1, h1, hr1⟩ := insertCall_refines h (hv c (List.mem_cons_self _ _))
    obtain ⟨db', h', hr'⟩ := ih hr1 fun c hc => hv c (List.mem_cons_of_mem _ hc)
    exact ⟨db', by simp [runInserts, h1, h', bind, Except.bind], hr'⟩

end Refinement

/-- The stores that runs of valid calls build from the empty store. -/
def Reachable (cfg : Config) (db : Db) : Prop :=
  ∃ calls : List InsertCall, (∀ c ∈ calls, c.Valid) ∧
    ∃ changes, runInserts cfg calls Db.empty LmdbChanges.zero = .ok (db, changes)

/-- A reachable store encodes the abstract store of its run. -/
theorem Reachable.refines {cfg : Config} {db : Db} (h : Reachable cfg db) :
    ∃ σ : Store, Refines cfg db σ.entries := by
  obtain ⟨calls, hv, changes, hrun⟩ := h
  obtain ⟨db', hrun', hr⟩ := runInserts_refines (refines_empty cfg) hv
  rw [show LmdbChanges.zero = Store.empty.changes from rfl, hrun'] at hrun
  cases hrun
  exact ⟨_, hr⟩

/-- The C++ store refines the abstract one: a run of valid calls from the empty store and
zeroed counters raises none of `insert`'s faults, ends with the abstract store's counters, and on every hash
`find` returns the abstract store's entry and `find_count` its number of pairs. -/
theorem find_reads_abstract_store (cfg : Config) (calls : List InsertCall)
    (hv : ∀ c ∈ calls, c.Valid) :
    ∃ db, runInserts cfg calls Db.empty LmdbChanges.zero =
        .ok (db, (Store.empty.run cfg calls).changes) ∧
      ∀ H, H ≠ [] → find cfg db H = .ok (Entry.found ((Store.empty.run cfg calls).entries H)) ∧
        findCount db H = .ok (sourceCount ((Store.empty.run cfg calls).entries H)) := by
  obtain ⟨db, hrun, hr⟩ := runInserts_refines (refines_empty cfg) hv
  exact ⟨db, hrun, fun H hH => ⟨find_spec hH (hr H), findCount_spec hH (hr H)⟩⟩

/-- Two calls on one hash. -/
theorem find_reads_abstract_store_two :
    let calls : List InsertCall := [⟨[1], 1, 0, 0, ⟨[], by decide⟩⟩, ⟨[1], 2, 512, 7, ⟨[], by decide⟩⟩]
    (∀ c ∈ calls, c.Valid) ∧
      ∃ db, runInserts ⟨512, 0, by decide⟩ calls Db.empty LmdbChanges.zero =
          .ok (db, (Store.empty.run ⟨512, 0, by decide⟩ calls).changes) ∧
        ∀ H, H ≠ [] →
          find ⟨512, 0, by decide⟩ db H =
              .ok (Entry.found ((Store.empty.run ⟨512, 0, by decide⟩ calls).entries H)) ∧
            findCount db H = .ok (sourceCount ((Store.empty.run ⟨512, 0, by decide⟩ calls).entries H)) := by
  intro calls
  have hv : ∀ c ∈ calls, c.Valid := by decide
  exact ⟨hv, find_reads_abstract_store _ calls hv⟩

end HashData
end HashDb

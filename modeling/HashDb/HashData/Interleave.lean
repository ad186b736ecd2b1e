import HashDb.HashData.Properties

/-!
# Threads importing different hashes

Importing threads run in parallel and the import manager holds its write mutex for the whole
of one `insert` call (spec §6), so a run of the store is some interleaving of the threads'
calls, one call at a time. This file shows that on the hash data store the interleaving only
matters within a hash:

* `Store.insert_comm`: two calls on different hashes commute, entries and counters, because a
  call reads and writes the entry of its own hash only and raises counters by amounts that
  entry fixes (`insert_changes`);
* `Store.run_eq_of_filter_eq`: two runs with the same calls on each hash, in the same order,
  build the same abstract store;
* `Refines.unique`: the records of a store are fixed by the entries they encode, so the
  C++ runs agree too (`interleaved_inserts_agree`), and the records of one hash are those the
  calls on that hash alone build (`hash_records_of_own_calls`).
-/

namespace HashDb
namespace HashData

open Lmdb Entry

/-! ## Counters as increments -/

namespace LmdbChanges

/-- Counters added field by field: what a call raises, added to what was there. -/
def add (c d : LmdbChanges) : LmdbChanges :=
  ⟨c.hashDataDataInserted + d.hashDataDataInserted, c.hashDataDataSame + d.hashDataDataSame,
    c.hashDataDataChanged + d.hashDataDataChanged,
    c.hashDataSourceInserted + d.hashDataSourceInserted,
    c.hashDataSourceAlreadyPresent + d.hashDataSourceAlreadyPresent,
    c.hashDataSourceAtMax + d.hashDataSourceAtMax,
    c.hashDataInvalidFileOffset + d.hashDataInvalidFileOffset⟩

theorem add_right_comm (c d e : LmdbChanges) : (c.add d).add e = (c.add e).add d := by
  simp only [add, Nat.add_right_comm]

end LmdbChanges

namespace Entry

/-- `tally` raises each counter by an amount fixed by the entry and the call, whatever the
counters were. -/
theorem tally_eq_add (cfg : Config) (pair : UInt64 × UInt64) (entropy : UInt64)
    (blockLabel : StdString) (e : Option Entry) (c : LmdbChanges) :
    tally cfg pair entropy blockLabel e c = c.add (tally cfg pair entropy blockLabel e .zero) := by
  cases e with
  | none => rfl
  | some ent => simp only [tally, tallySource]; split_ifs <;> rfl

end Entry

namespace Store

variable {cfg : Config} {σ : Store} {c d : InsertCall}

/-- The counters a call raises, from the entry it finds for its hash. -/
def raised (cfg : Config) (c : InsertCall) (e : Option Entry) : LmdbChanges :=
  if c.Accepted cfg then tally cfg c.pair c.entropy c.blockLabel e .zero
  else { LmdbChanges.zero with hashDataInvalidFileOffset := 1 }

theorem insert_changes :
    (σ.insert cfg c).2.changes = σ.changes.add (raised cfg c (σ.entries c.binaryHash)) := by
  unfold insert raised
  split_ifs
  · exact tally_eq_add ..
  · rfl

/-- Calls on different hashes commute. -/
theorem insert_comm (h : c.binaryHash ≠ d.binaryHash) :
    ((σ.insert cfg c).2.insert cfg d).2 = ((σ.insert cfg d).2.insert cfg c).2 := by
  ext1
  · funext H
    simp only [insert_entries]
    by_cases hc : c.binaryHash = H
    · subst hc; simp [Ne.symm h]
    · by_cases hd : d.binaryHash = H
      · subst hd; simp [h]
      · simp [hc, hd]
  · rw [insert_changes, insert_changes, insert_changes, insert_changes,
      insert_entries_of_ne cfg σ h, insert_entries_of_ne cfg σ (Ne.symm h),
      LmdbChanges.add_right_comm]

theorem run_eq_foldl (calls : List InsertCall) :
    σ.run cfg calls = calls.foldl (fun τ c => (τ.insert cfg c).2) σ := by
  induction calls generalizing σ with
  | nil => rfl
  | cons c cs ih => exact ih

/-- Two runs with the same calls on each hash, in the same order, build the same store. -/
theorem run_eq_of_filter_eq {calls₁ calls₂ : List InsertCall}
    (h : ∀ H, calls₁.filter (·.binaryHash = H) = calls₂.filter (·.binaryHash = H)) :
    σ.run cfg calls₁ = σ.run cfg calls₂ := by
  rw [run_eq_foldl, run_eq_foldl]
  exact foldl_eq_of_filter_eq _ InsertCall.binaryHash (fun _ _ _ => insert_comm) _ _ h σ

/-- The entry a call leaves for `H` depends on the store only through the entry of `H`. -/
theorem insert_entries_congr {τ : Store} {H : Bytes} (h : σ.entries H = τ.entries H)
    (c : InsertCall) : (σ.insert cfg c).2.entries H = (τ.insert cfg c).2.entries H := by
  rw [insert_entries, insert_entries, h]

theorem run_entries_congr {τ : Store} {H : Bytes} (h : σ.entries H = τ.entries H)
    (calls : List InsertCall) : (σ.run cfg calls).entries H = (τ.run cfg calls).entries H := by
  induction calls generalizing σ τ with
  | nil => exact h
  | cons c cs ih => exact ih (insert_entries_congr h c)

/-- The entry of `H` after a run is the one the run's calls on `H` alone build. -/
theorem run_entries_eq_filter (H : Bytes) (calls : List InsertCall) :
    (σ.run cfg calls).entries H = (σ.run cfg (calls.filter (·.binaryHash = H))).entries H := by
  induction calls generalizing σ with
  | nil => rfl
  | cons c cs ih =>
    rw [List.filter_cons]
    by_cases hc : c.binaryHash = H
    · rw [if_pos (decide_eq_true hc), run_cons, run_cons]
      exact ih
    · rw [if_neg (by simpa using hc), run_cons, ih]
      exact run_entries_congr (insert_entries_of_ne cfg σ (Ne.symm hc)) _

end Store

/-! ## The C++ store -/

section Runs

variable {cfg : Config} {db : Db}

/-- The records that encode an abstract store's entries are unique. -/
theorem Refines.unique {db' : Db} {entries : Bytes → Option Entry}
    (h : Refines cfg db entries) (h' : Refines cfg db' entries) : db = db' :=
  Db.ext_dups fun H => (h H).unique (h' H)

/-- How `insert` calls on different hashes interleave does not matter: from any reachable
store and any counters, two runs of valid calls with the same calls on each hash, in the same
order, end in the same store with the same counters. -/
theorem interleaved_inserts_agree (hdb : Reachable cfg db) (changes : LmdbChanges)
    {calls₁ calls₂ : List InsertCall} (hv : ∀ c ∈ calls₁, c.Valid)
    (h : ∀ H, calls₁.filter (·.binaryHash = H) = calls₂.filter (·.binaryHash = H)) :
    runInserts cfg calls₁ db changes = runInserts cfg calls₂ db changes := by
  obtain ⟨σ, hσ⟩ := hdb.refines
  have hv₂ : ∀ c ∈ calls₂, c.Valid := fun c hc => by
    have hc' : c ∈ calls₂.filter (·.binaryHash = c.binaryHash) :=
      List.mem_filter_of_mem hc (decide_eq_true rfl)
    rw [← h] at hc'
    exact hv c (List.mem_of_mem_filter hc')
  have hrun : (⟨σ.entries, changes⟩ : Store).run cfg calls₁ =
      (⟨σ.entries, changes⟩ : Store).run cfg calls₂ := Store.run_eq_of_filter_eq h
  obtain ⟨db₁, h₁, hr₁⟩ := runInserts_refines (refines_with changes hσ) hv
  obtain ⟨db₂, h₂, hr₂⟩ := runInserts_refines (refines_with changes hσ) hv₂
  rw [← hrun] at h₂ hr₂
  rw [show runInserts cfg calls₁ db changes = _ from h₁,
    show runInserts cfg calls₂ db changes = _ from h₂, hr₁.unique hr₂]

/-- Two calls on different hashes, in both orders, from the empty store. -/
theorem interleaved_inserts_agree_swap :
    let cfg : Config := ⟨512, 0, by decide⟩
    let c₁ : InsertCall := ⟨[1], 1, 0, 0, ⟨[], by decide⟩⟩
    let c₂ : InsertCall := ⟨[2], 1, 512, 0, ⟨[], by decide⟩⟩
    Reachable cfg Db.empty ∧ (∀ c ∈ [c₁, c₂], c.Valid) ∧
      (∀ H, [c₁, c₂].filter (·.binaryHash = H) = [c₂, c₁].filter (·.binaryHash = H)) ∧
      runInserts cfg [c₁, c₂] Db.empty .zero = runInserts cfg [c₂, c₁] Db.empty .zero := by
  intro cfg c₁ c₂
  have hdb : Reachable cfg Db.empty := ⟨[], by simp, _, rfl⟩
  have hv : ∀ c ∈ [c₁, c₂], c.Valid := by decide
  have h : ∀ H, [c₁, c₂].filter (·.binaryHash = H) = [c₂, c₁].filter (·.binaryHash = H) :=
    fun H => by
      by_cases h1 : ([1] : Bytes) = H
      · subst h1; decide
      · by_cases h2 : ([2] : Bytes) = H
        · subst h2; decide
        · simp [c₁, c₂, h1, h2]
  exact ⟨hdb, hv, h, interleaved_inserts_agree hdb .zero hv h⟩

/-- A run of valid calls raises none of `insert`'s faults, and the records of a hash after it are
those the run's calls on that hash alone build, from the same store: `find` on them gives the
same answer. Calls on other hashes never touch them. -/
theorem hash_records_of_own_calls (hdb : Reachable cfg db) (changes : LmdbChanges) (H : Bytes)
    {calls : List InsertCall} (hv : ∀ c ∈ calls, c.Valid) :
    ∃ db₁ ch₁ db₂ ch₂, runInserts cfg calls db changes = .ok (db₁, ch₁) ∧
      runInserts cfg (calls.filter (·.binaryHash = H)) db changes = .ok (db₂, ch₂) ∧
      db₁.dups H = db₂.dups H ∧ find cfg db₁ H = find cfg db₂ H := by
  obtain ⟨σ, hσ⟩ := hdb.refines
  obtain ⟨db₁, h₁, hr₁⟩ := runInserts_refines (refines_with changes hσ) hv
  obtain ⟨db₂, h₂, hr₂⟩ := runInserts_refines (refines_with changes hσ)
    (show ∀ c ∈ calls.filter (·.binaryHash = H), c.Valid from
      fun c hc => hv c (List.mem_of_mem_filter hc))
  have he : ((⟨σ.entries, changes⟩ : Store).run cfg calls).entries H =
      ((⟨σ.entries, changes⟩ : Store).run cfg (calls.filter (·.binaryHash = H))).entries H :=
    Store.run_entries_eq_filter H calls
  have hr₂' := hr₂ H
  rw [← he] at hr₂'
  refine ⟨db₁, _, db₂, _, h₁, h₂, (hr₁ H).unique hr₂', ?_⟩
  by_cases hH : H = []
  · simp [find, hH]
  · rw [find_spec hH (hr₁ H), find_spec hH hr₂']

/-- A call on another hash leaves the records of `[1]` as the call on `[1]` alone builds them. -/
theorem hash_records_of_own_calls_two :
    let cfg : Config := ⟨512, 0, by decide⟩
    let calls : List InsertCall := [⟨[2], 1, 0, 0, ⟨[], by decide⟩⟩, ⟨[1], 1, 512, 0, ⟨[], by decide⟩⟩]
    Reachable cfg Db.empty ∧ (∀ c ∈ calls, c.Valid) ∧
      ∃ db₁ ch₁ db₂ ch₂, runInserts cfg calls Db.empty .zero = .ok (db₁, ch₁) ∧
        runInserts cfg (calls.filter (·.binaryHash = [1])) Db.empty .zero = .ok (db₂, ch₂) ∧
        db₁.dups [1] = db₂.dups [1] ∧ find cfg db₁ [1] = find cfg db₂ [1] := by
  intro cfg calls
  have hdb : Reachable cfg Db.empty := ⟨[], by simp, _, rfl⟩
  have hv : ∀ c ∈ calls, c.Valid := by decide
  exact ⟨hdb, hv, hash_records_of_own_calls hdb .zero [1] hv⟩

end Runs

end HashData
end HashDb

import HashDb.HashData.Properties

/-!
# Walking the store in hash order

The commands (`add`, `intersect`, `subtract`, `deduplicate`, ...) visit every hash of a store
with one loop:

    pair = manager.hash_begin();
    while (pair.first) { ...; pair = manager.hash_next(pair.second); }

`hashWalk` is that loop over `find_begin` and `find_next`, with a bound on its turns. On every
reachable store it ends within as many turns as there are hashes, never faults (so `find_next`
is never given a hash the store lacks), and visits the store's hashes in increasing order, each
once: exactly the hashes whose `find_count` is positive.

`selectHashes` is the same loop for the commands that act on some of the hashes only: a test
of each hash, which may fault, before `hash_next`. On every store whose hashes all pass the
test without a fault it keeps, in order, the hashes the test accepts (`selectHashes_eq_filter`).
-/

namespace HashDb
namespace HashData

open Lmdb

/-- Modelled from the spec: `scan_manager_t::hash_begin` and `hash_next` (hashdb.hpp; their
bodies are not in src/) return the first hash and the hash after the given one, which is what
`find_begin` and `find_next` of the hash data store compute. From the current `pair`, the loop
of the commands: the hashes it visits, `none` if `fuel` turns are not enough. -/
def walkHashes (db : Db) : Nat → Bool × Bytes → Option (Except Fault (List Bytes))
  | _, (false, _) => some (.ok [])
  | 0, (true, _) => none
  | fuel + 1, (true, key) =>
    match findNext db key with
    | .error f => some (.error f)
    | .ok pair => (walkHashes db fuel pair).map (Except.map (key :: ·))

/-- The loop of the commands over the whole store, from `hash_begin()`. -/
def hashWalk (db : Db) (fuel : Nat) : Option (Except Fault (List Bytes)) :=
  walkHashes db fuel (findBegin db)

section Walk

variable {db : Db}

theorem findNext_of_mem {pre post : List Bytes} {key : Bytes} (hk : key ≠ [])
    (h : db.keys = pre ++ key :: post) :
    findNext db key = .ok (match post.head? with
      | some next => (true, next)
      | none => (false, [])) := by
  have hmem : key ∈ db.keys := h ▸ List.mem_append_right _ (List.mem_cons_self _ _)
  simp only [findNext, hk, hmem, not_true_eq_false, if_false, Db.nextKey_eq h]
  cases post.head? <;> rfl

/-- From a hash, the loop visits it and every later hash. -/
theorem walkHashes_of_mem (hne : ∀ k ∈ db.keys, k ≠ []) :
    ∀ (post pre : List Bytes) (key : Bytes) (fuel : Nat), db.keys = pre ++ key :: post →
      post.length < fuel → walkHashes db fuel (true, key) = some (.ok (key :: post))
  | _, _, _, 0, _, hf => absurd hf (Nat.not_lt_zero _)
  | [], pre, key, fuel + 1, h, _ => by
    have hk := hne key (h ▸ List.mem_append_right _ (List.mem_cons_self _ _))
    simp [walkHashes, findNext_of_mem hk h, Except.map]
  | next :: post, pre, key, fuel + 1, h, hf => by
    have hk := hne key (h ▸ List.mem_append_right _ (List.mem_cons_self _ _))
    have ih := walkHashes_of_mem hne post (pre ++ [key]) next fuel (by simp [h])
      (by simpa using hf)
    simp [walkHashes, findNext_of_mem hk h, ih, Except.map]

/-- With as many turns as hashes, the loop visits the store's hashes, in order. -/
theorem hashWalk_eq_keys (hne : ∀ k ∈ db.keys, k ≠ []) {fuel : Nat}
    (hfuel : db.keys.length ≤ fuel) : hashWalk db fuel = some (.ok db.keys) := by
  unfold hashWalk findBegin Db.first
  cases hk : db.keys with
  | nil => cases fuel <;> rfl
  | cons key post =>
    rw [hk] at hfuel
    exact walkHashes_of_mem hne post [] key fuel hk hfuel

/-- The loop of the commands that act on some hashes: from the current `pair`, `keep` tests the
hash (a `find_hash` of it, or a lookup in another store), then `hash_next`; the hashes the test
accepted, in the order visited; `none` if `fuel` turns are not enough. -/
def selectHashes (db : Db) (keep : Bytes → Except Fault Bool) :
    Nat → Bool × Bytes → Option (Except Fault (List Bytes))
  | _, (false, _) => some (.ok [])
  | 0, (true, _) => none
  | fuel + 1, (true, key) =>
    match keep key with
    | .error f => some (.error f)
    | .ok b =>
      match findNext db key with
      | .error f => some (.error f)
      | .ok pair =>
        (selectHashes db keep fuel pair).map (Except.map fun hs => if b then key :: hs else hs)

variable {keep : Bytes → Except Fault Bool} {p : Bytes → Bool}

/-- From a hash, the loop keeps what the test accepts of it and of every later hash. -/
theorem selectHashes_of_mem (hne : ∀ k ∈ db.keys, k ≠ [])
    (hkeep : ∀ H ∈ db.keys, keep H = .ok (p H)) :
    ∀ (post pre : List Bytes) (key : Bytes) (fuel : Nat), db.keys = pre ++ key :: post →
      post.length < fuel → selectHashes db keep fuel (true, key) = some (.ok ((key :: post).filter p))
  | _, _, _, 0, _, hf => absurd hf (Nat.not_lt_zero _)
  | [], pre, key, fuel + 1, h, _ => by
    have hmem : key ∈ db.keys := h ▸ List.mem_append_right _ (List.mem_cons_self _ _)
    cases hp : p key <;>
      simp [selectHashes, hkeep key hmem, findNext_of_mem (hne key hmem) h, Except.map, hp]
  | next :: post, pre, key, fuel + 1, h, hf => by
    have hmem : key ∈ db.keys := h ▸ List.mem_append_right _ (List.mem_cons_self _ _)
    have ih := selectHashes_of_mem hne hkeep post (pre ++ [key]) next fuel (by simp [h])
      (by simpa using hf)
    rw [List.filter_cons]
    cases hp : p key <;>
      simp [selectHashes, hkeep key hmem, findNext_of_mem (hne key hmem) h, ih, Except.map, hp]

/-- With as many turns as hashes, the loop keeps the store's hashes the test accepts, in order. -/
theorem selectHashes_eq_filter (hne : ∀ k ∈ db.keys, k ≠ [])
    (hkeep : ∀ H ∈ db.keys, keep H = .ok (p H)) {fuel : Nat} (hfuel : db.keys.length ≤ fuel) :
    selectHashes db keep fuel (findBegin db) = some (.ok (db.keys.filter p)) := by
  unfold findBegin Db.first
  cases hk : db.keys with
  | nil => cases fuel <;> rfl
  | cons key post =>
    rw [hk] at hfuel
    exact selectHashes_of_mem hne hkeep post [] key fuel hk hfuel

end Walk

/-- On a reachable store the commands' loop ends within as many turns as there are hashes,
without a fault, having visited every hash once in strictly increasing order: the hashes
whose `find_count` is positive. -/
theorem hash_walk_visits_keys (cfg : Config) (db : Db) (h : Reachable cfg db) :
    (∀ fuel, db.keys.length ≤ fuel → hashWalk db fuel = some (.ok db.keys)) ∧
    db.keys.Sorted (· < ·) ∧
    ∀ H, H ∈ db.keys ↔ ∃ n, findCount db H = .ok n ∧ 0 < n := by
  obtain ⟨σ, hr⟩ := h.refines
  have hnil := h.dups_nil
  refine ⟨fun _ hf => hashWalk_eq_keys h.keys_ne_nil hf, db.keys_sorted, fun H => ?_⟩
  by_cases hH : H = []
  · subst hH
    simp [findCount, Db.mem_keys_iff, hnil]
  · rw [findCount_spec hH (hr H), Db.mem_keys_iff, Ne, (hr H).eq_nil_iff]
    cases he : σ.entries H with
    | none => simp [sourceCount]
    | some ent => simpa [sourceCount] using Finset.card_pos.1 (he ▸ hr H).card_pos

/-- The walk of a store of two hashes, one with a Type 1 record and one with a Type 2 record. -/
theorem hash_walk_visits_keys_two_hashes :
    Reachable sampleConfig sampleStore ∧
    ((∀ fuel, sampleStore.keys.length ≤ fuel →
        hashWalk sampleStore fuel = some (.ok sampleStore.keys)) ∧
    sampleStore.keys.Sorted (· < ·) ∧
    ∀ H, H ∈ sampleStore.keys ↔ ∃ n, findCount sampleStore H = .ok n ∧ 0 < n) :=
  ⟨sampleStore_reachable, hash_walk_visits_keys _ _ sampleStore_reachable⟩

end HashData
end HashDb

import HashDb.HashData.Iteration

/-!
# `commands::duplicates` and the store's `size()`

`duplicates` (src/src/commands.hpp) prints "The map is empty." when the store's `size()` is 0;
otherwise it walks the hashes with `hash_begin`/`hash_next`, reads each one's source pairs with
`find_hash`, and lists the hash when it has `number` pairs (`number` is the `uint32_t` that
`atoi` makes of the argument); if it listed none it closes with "No hashes were found with this
count.".

`scan_manager_t::size()` is documented in hashdb.hpp as the number of unique hashes; its body
is not in src/. The model reads it as the hash data store's `size()`, `lmdb_helper::size`,
LMDB's count of data items, which counts records, not hashes: a hash with one pair is one
Type 1 record, a hash with `n ≥ 2` pairs is a Type 2 record and `n` Type 3 records
(`size_counts_records`). Both readings are 0 exactly on a store with no hash, and that is all
`duplicates` relies on.
-/

namespace HashDb
namespace Commands

open Lmdb HashData

/-- What a statistics command prints, apart from its header and each hash's expanded text: a
line alone, or the hashes it lists and the line it closes with. -/
inductive Printed
  | message (text : String)
  | listed (hashes : List Bytes) (closing : Option String)
  deriving DecidableEq

/-- Modelled from the spec: `scan_manager_t::size()` and `find_hash` (hashdb.hpp; their bodies
are not in src/) are read as the hash data store's `size()` and the pairs of its `find`, as in
`histogramLoop`. `duplicates`, `none` if `fuel` turns of the loop are not enough. -/
def duplicates (cfg : Config) (db : Db) (number : UInt32) (fuel : Nat) :
    Option (Except Fault Printed) :=
  if size db = 0 then some (.ok (.message "The map is empty."))
  else
    (selectHashes db (fun H => (find cfg db H).map fun r => decide (r.2.2.2.card = number.toNat))
        fuel (findBegin db)).map <| Except.map fun hs =>
      .listed hs (if hs = [] then some "No hashes were found with this count." else none)

section Reachable

variable {cfg : Config} {db : Db}

/-- A hash of a reachable store is one `find` finds pairs for. -/
theorem mem_keys_iff_card_pos (h : Reachable cfg db) (H : Bytes) :
    H ∈ db.keys ↔ 0 < (foundPairs cfg db H).card := by
  obtain ⟨σ, hr⟩ := h.refines
  by_cases hH : H = []
  · subst hH
    simp [foundPairs, find, Db.mem_keys_iff, h.dups_nil]
  · rw [foundPairs_eq hH (hr H), Db.mem_keys_iff, Ne, (hr H).eq_nil_iff]
    cases he : σ.entries H with
    | none => simp [pairsOf]
    | some ent => simpa [pairsOf] using Finset.card_pos.1 (he ▸ hr H).card_pos

theorem find_ok_of_mem (h : Reachable cfg db) {H : Bytes} (hH : H ∈ db.keys) :
    ∃ r, find cfg db H = .ok r ∧ r.2.2.2 = foundPairs cfg db H := by
  obtain ⟨σ, hr⟩ := h.refines
  exact ⟨_, find_spec (h.keys_ne_nil H hH) (hr H), by
    rw [foundPairs, find_spec (h.keys_ne_nil H hH) (hr H)]⟩

end Reachable

theorem size_eq_sum_count (db : Db) : db.size = (db.keys.map db.count).sum := by
  rw [Db.size, List.length_flatMap, Db.groups_eq_map_dups, List.map_map]
  rfl

/-- `size()` counts records: on a reachable store, a hash with one source pair adds one, a hash
with `n ≥ 2` pairs adds `n + 1`; so it is 0 exactly when the store has no hash. -/
theorem size_counts_records (cfg : Config) (db : Db) (h : Reachable cfg db) :
    size db = (db.keys.map fun H =>
        if (foundPairs cfg db H).card = 1 then 1 else (foundPairs cfg db H).card + 1).sum ∧
      (size db = 0 ↔ db.keys = []) := by
  obtain ⟨σ, hr⟩ := h.refines
  refine ⟨?_, db.size_eq_zero_iff⟩
  rw [size, size_eq_sum_count]
  refine congrArg List.sum (List.map_congr_left fun H hH => ?_)
  obtain ⟨ent, he⟩ : ∃ ent, σ.entries H = some ent :=
    Option.ne_none_iff_exists'.1 fun hn => Db.mem_keys_iff.1 hH ((hr H).eq_nil_iff.2 hn)
  have hh : Holds cfg (db.dups H) (some ent) := he ▸ hr H
  rw [foundPairs_eq (h.keys_ne_nil H hH) hh, Db.count, hh.length_eq]
  rfl

/-- A store with a hash of one pair (one record) and a hash of two (three records). -/
theorem size_counts_records_two_hashes :
    Reachable sampleConfig sampleStore ∧
      (size sampleStore = (sampleStore.keys.map fun H =>
          if (foundPairs sampleConfig sampleStore H).card = 1 then 1
          else (foundPairs sampleConfig sampleStore H).card + 1).sum ∧
        (size sampleStore = 0 ↔ sampleStore.keys = [])) :=
  ⟨sampleStore_reachable, size_counts_records _ _ sampleStore_reachable⟩

/-- On every reachable store, with as many turns as hashes, `duplicates` does not fault. It
prints "The map is empty." exactly when there is no hash; otherwise it lists, in increasing
order and once each, exactly the hashes `find` finds `number` pairs for (none when `number` is
0), and closes with "No hashes were found with this count." exactly when that list is empty.
These are the hashes `histogram` counts under `number` (`histogram_counts`). -/
theorem duplicates_lists_hashes (cfg : Config) (db : Db) (h : Reachable cfg db) (number : UInt32)
    {fuel : Nat} (hfuel : db.keys.length ≤ fuel) :
    ∃ hs : List Bytes, duplicates cfg db number fuel =
        some (.ok (if db.keys = [] then .message "The map is empty."
          else .listed hs (if hs = [] then some "No hashes were found with this count." else none))) ∧
      hs.Sorted (· < ·) ∧ ∀ H, H ∈ hs ↔ 0 < number.toNat ∧ (foundPairs cfg db H).card = number.toNat := by
  refine ⟨db.keys.filter fun H => (foundPairs cfg db H).card = number.toNat, ?_,
    db.keys_sorted.sublist (List.filter_sublist _), fun H => ?_⟩
  · by_cases hk : db.keys = []
    · simp [duplicates, size, (Db.size_eq_zero_iff db).2 hk, hk]
    · have hkeep : ∀ H ∈ db.keys, ((find cfg db H).map fun r =>
          decide (r.2.2.2.card = number.toNat)) = .ok (decide ((foundPairs cfg db H).card = number.toNat)) :=
        fun H hH => by
          obtain ⟨r, hf, hp⟩ := find_ok_of_mem h hH
          rw [hf, ← hp]
          rfl
      rw [duplicates, if_neg (by rwa [size, Db.size_eq_zero_iff]), if_neg hk,
        selectHashes_eq_filter h.keys_ne_nil hkeep hfuel]
      rfl
  · rw [List.mem_filter, mem_keys_iff_card_pos h, decide_eq_true_iff]
    constructor
    · rintro ⟨hpos, heq⟩; exact ⟨heq ▸ hpos, heq⟩
    · rintro ⟨hpos, heq⟩; exact ⟨heq ▸ hpos, heq⟩

/-- The hashes of two pairs in a store with a hash of one pair and a hash of two. -/
theorem duplicates_lists_hashes_two_hashes :
    Reachable sampleConfig sampleStore ∧ sampleStore.keys.length ≤ 2 ∧
      ∃ hs : List Bytes, duplicates sampleConfig sampleStore 2 2 =
          some (.ok (if sampleStore.keys = [] then .message "The map is empty."
            else .listed hs (if hs = [] then some "No hashes were found with this count." else none))) ∧
        hs.Sorted (· < ·) ∧ ∀ H, H ∈ hs ↔ 0 < (2 : UInt32).toNat ∧
          (foundPairs sampleConfig sampleStore H).card = (2 : UInt32).toNat :=
  have hfuel : sampleStore.keys.length ≤ 2 := le_of_eq rfl
  ⟨sampleStore_reachable, hfuel, duplicates_lists_hashes _ _ sampleStore_reachable 2 hfuel⟩

end Commands
end HashDb

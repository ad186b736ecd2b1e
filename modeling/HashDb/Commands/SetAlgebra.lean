import HashDb.Commands.Statistics

/-!
# The loops of the set-algebra commands

`add`, `add_repository`, `intersect`, `intersect_hash`, `subtract`, `subtract_hash`,
`subtract_repository` and `deduplicate` (src/src/commands.hpp) all walk database A with
`hash_begin`/`hash_next` and hand hashes to an adder (`adder_t` or `adder_set_t`, whose code is
not in src/), one call per hash. What each command copies is the adder's business; which
hashes it hands over, and in what order, is the loop's:

* `intersect` and `intersect_hash` hand over the hashes of A for which B's
  `find_hash_count` is positive;
* the six others hand over every hash of A.

Each command is modelled as the list of hashes its adder is called on. The six that hand over
every hash are the walk of `hash_walk_visits_keys`. On reachable stores the loop of
`intersect` and `intersect_hash` ends without a fault, having handed over, in increasing order
and once each, the hashes that A and B share (`intersect_picks_shared_hashes`).
-/

namespace HashDb
namespace Commands

open Lmdb HashData

/-- Modelled from the spec: `scan_manager_t::find_hash_count` (its body is not in src/) is read
as the hash data store's `find_count`. `intersect(A, B → C)`: the hashes of A that
`adder_set.intersect` is called on, `none` if `fuel` turns are not enough. -/
def intersect (dbA dbB : Db) (fuel : Nat) : Option (Except Fault (List Bytes)) :=
  selectHashes dbA (fun H => (findCount dbB H).map fun n => decide (0 < n)) fuel (findBegin dbA)

/-- `intersect_hash(A, B → C)`: the hashes of A that `adder_set.intersect_hash` is called on. -/
def intersectHash (dbA dbB : Db) (fuel : Nat) : Option (Except Fault (List Bytes)) :=
  selectHashes dbA (fun H => (findCount dbB H).map fun n => decide (0 < n)) fuel (findBegin dbA)

/-- `add(A → B)`: the hashes `adder.add` is called on. -/
def add (dbA : Db) (fuel : Nat) : Option (Except Fault (List Bytes)) := hashWalk dbA fuel

/-- `add_repository(A → B)`: the hashes `adder.add_repository` is called on. -/
def addRepository (dbA : Db) (fuel : Nat) : Option (Except Fault (List Bytes)) :=
  hashWalk dbA fuel

/-- `subtract(A, B → C)`: the hashes `adder_set.subtract` is called on. -/
def subtract (dbA : Db) (fuel : Nat) : Option (Except Fault (List Bytes)) := hashWalk dbA fuel

/-- `subtract_hash(A, B → C)`: the hashes `adder_set.subtract_hash` is called on. -/
def subtractHash (dbA : Db) (fuel : Nat) : Option (Except Fault (List Bytes)) :=
  hashWalk dbA fuel

/-- `subtract_repository(A → B)`: the hashes `adder.add_non_repository` is called on. -/
def subtractRepository (dbA : Db) (fuel : Nat) : Option (Except Fault (List Bytes)) :=
  hashWalk dbA fuel

/-- `deduplicate(A → B)`: the hashes `adder.deduplicate` is called on. -/
def deduplicate (dbA : Db) (fuel : Nat) : Option (Except Fault (List Bytes)) :=
  hashWalk dbA fuel

/-- On a reachable store, `find_count` does not fault on a nonempty hash and is positive exactly
on the store's hashes. -/
theorem findCount_pos_iff {cfg : Config} {db : Db} (h : Reachable cfg db) {H : Bytes}
    (hH : H ≠ []) : ∃ n, findCount db H = .ok n ∧ (0 < n ↔ H ∈ db.keys) := by
  obtain ⟨σ, hr⟩ := h.refines
  refine ⟨_, findCount_spec hH (hr H), ?_⟩
  rw [mem_keys_iff_card_pos h, foundPairs_eq hH (hr H)]
  cases σ.entries H <;> rfl

/-- On reachable stores A and B, with as many turns as A has hashes, the loop of `intersect` and
`intersect_hash` does not fault, and hands the adder the hashes A and B share, in increasing
order and once each. -/
theorem intersect_picks_shared_hashes (cfgA cfgB : Config) (dbA dbB : Db) (hA : Reachable cfgA dbA)
    (hB : Reachable cfgB dbB) {fuel : Nat} (hfuel : dbA.keys.length ≤ fuel) :
    ∃ hs, intersect dbA dbB fuel = some (.ok hs) ∧ intersectHash dbA dbB fuel = some (.ok hs) ∧
      hs.Sorted (· < ·) ∧ ∀ H, H ∈ hs ↔ H ∈ dbA.keys ∧ H ∈ dbB.keys := by
  have hkeep : ∀ H ∈ dbA.keys,
      ((findCount dbB H).map fun n => decide (0 < n)) = .ok (decide (H ∈ dbB.keys)) := by
    intro H hH
    obtain ⟨n, hn, hiff⟩ := findCount_pos_iff hB (hA.keys_ne_nil H hH)
    rw [hn]
    exact congrArg Except.ok (decide_eq_decide.2 hiff)
  have hsel := selectHashes_eq_filter hA.keys_ne_nil hkeep hfuel
  exact ⟨_, hsel, hsel, dbA.keys_sorted.sublist (List.filter_sublist _), fun H => by simp⟩

/-- The hashes a store of `[1]` and `[2]` shares with a store of `[2]` and `[3]`. -/
theorem intersect_picks_shared_hashes_two :
    Reachable sampleConfig sampleStore ∧ Reachable sampleConfig otherStore ∧
      sampleStore.keys.length ≤ 2 ∧
      ∃ hs, intersect sampleStore otherStore 2 = some (.ok hs) ∧
        intersectHash sampleStore otherStore 2 = some (.ok hs) ∧
        hs.Sorted (· < ·) ∧ ∀ H, H ∈ hs ↔ H ∈ sampleStore.keys ∧ H ∈ otherStore.keys :=
  have hfuel : sampleStore.keys.length ≤ 2 := le_of_eq rfl
  ⟨sampleStore_reachable, otherStore_reachable, hfuel, intersect_picks_shared_hashes _ _ _ _
    sampleStore_reachable otherStore_reachable hfuel⟩

end Commands
end HashDb

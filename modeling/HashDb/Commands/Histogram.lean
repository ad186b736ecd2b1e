import HashDb.HashData.Iteration

/-!
# `commands::histogram`

The `histogram` command (src/src/commands.hpp) walks the store with `hash_begin`/`hash_next`,
reads each hash's source pairs with `find_hash`, and keeps three things: `total_hashes`, the sum
of the pair counts; `total_distinct_hashes`, the number of hashes with one pair; and
`hash_histogram`, a `std::map<uint32_t, uint64_t>` from a pair count to the number of hashes
with it, updated by `find`, then `insert` of a new entry or `erase` and `insert` of the old
number plus one. It prints the two totals, then one line per entry in key order, with the
entry's product as its "total".

The map's key is a `uint32_t`, while the count is the `uint64_t` size of a set: a count is
truncated to 32 bits on its way into the map. On a reachable store no hash holds
`2^32` pairs (`card_foundPairs_lt`), so the truncation never changes a count, and the histogram
counts the hashes of each pair count exactly (`histogram_counts`).
-/

namespace HashDb
namespace Commands

open Lmdb HashData

/-! ## `std::map<uint32_t, uint64_t>` -/

/-- A `std::map<uint32_t, uint64_t>`: its entries in increasing key order. -/
abbrev CountMap := List (UInt32 × Nat)

/-- `find(k)`: the number under `k`, if there is an entry. -/
def mapFind : CountMap → UInt32 → Option Nat
  | [], _ => none
  | (k', v) :: rest, k => if k = k' then some v else mapFind rest k

/-- `insert({k, v})`: a new entry in its place; a key already there keeps its entry. -/
def mapInsert (k : UInt32) (v : Nat) : CountMap → CountMap
  | [] => [(k, v)]
  | (k', v') :: rest =>
    if k.toNat < k'.toNat then (k, v) :: (k', v') :: rest
    else if k = k' then (k', v') :: rest
    else (k', v') :: mapInsert k v rest

/-- `erase(k)`. -/
def mapErase (k : UInt32) (m : CountMap) : CountMap := m.filter (·.1 ≠ k)

/-- The keys are in increasing order. -/
def CountMap.Sorted (m : CountMap) : Prop := (m.map (·.1.toNat)).Sorted (· < ·)

/-- The sum over the entries of key times number. -/
def entrySum (m : CountMap) : Nat := (m.map fun e => e.1.toNat * e.2).sum

section Map

variable {m : CountMap}

theorem sorted_cons {k : UInt32} {v : Nat} :
    CountMap.Sorted ((k, v) :: m) ↔ (∀ e ∈ m, k.toNat < e.1.toNat) ∧ m.Sorted := by
  rw [CountMap.Sorted, List.map_cons, List.sorted_cons, List.forall_mem_map]
  rfl

theorem mapFind_eq_none_of_lt {k : UInt32} (h : ∀ e ∈ m, k.toNat < e.1.toNat) :
    mapFind m k = none := by
  induction m with
  | nil => rfl
  | cons e rest ih =>
    have hk : k ≠ e.1 := fun he => by have := h e (List.mem_cons_self _ _); rw [he] at this; omega
    simp only [mapFind, hk, if_false]
    exact ih fun e' he' => h e' (List.mem_cons_of_mem _ he')

theorem mem_mapInsert {k : UInt32} {v : Nat} {e : UInt32 × Nat} (he : e ∈ mapInsert k v m) :
    e = (k, v) ∨ e ∈ m := by
  induction m with
  | nil => simpa [mapInsert] using he
  | cons e' rest ih =>
    simp only [mapInsert] at he
    split_ifs at he
    · simpa using he
    · exact .inr he
    · rcases List.mem_cons.1 he with rfl | he
      · exact .inr (List.mem_cons_self _ _)
      · exact (ih he).imp_right (List.mem_cons_of_mem _)

theorem sorted_mapInsert (k : UInt32) (v : Nat) (hm : m.Sorted) : (mapInsert k v m).Sorted := by
  induction m with
  | nil => simp [mapInsert, CountMap.Sorted]
  | cons e rest ih =>
    obtain ⟨hlt, hrest⟩ := sorted_cons.1 hm
    simp only [mapInsert]
    split_ifs with h1 h2
    · exact sorted_cons.2 ⟨fun e' he' => by
        rcases List.mem_cons.1 he' with rfl | he'
        · exact h1
        · exact h1.trans (hlt e' he'), hm⟩
    · exact hm
    · refine sorted_cons.2 ⟨fun e' he' => ?_, ih hrest⟩
      rcases mem_mapInsert he' with rfl | he'
      · have : e.1.toNat ≠ k.toNat := fun h => h2 (UInt32.toNat.inj h.symm)
        show e.1.toNat < k.toNat
        omega
      · exact hlt e' he'

theorem sorted_mapErase (k : UInt32) (hm : m.Sorted) : (mapErase k m).Sorted :=
  hm.sublist ((List.filter_sublist _).map _)

theorem mapFind_mapInsert (k : UInt32) (v : Nat) (hm : m.Sorted) (k' : UInt32) :
    mapFind (mapInsert k v m) k' =
      if k' = k ∧ mapFind m k = none then some v else mapFind m k' := by
  induction m with
  | nil => by_cases h : k' = k <;> simp [mapInsert, mapFind, h]
  | cons e rest ih =>
    obtain ⟨ke, ve⟩ := e
    obtain ⟨hlt, hrest⟩ := sorted_cons.1 hm
    by_cases h1 : k.toNat < ke.toNat
    · have hnone : mapFind rest k = none := mapFind_eq_none_of_lt fun e he => h1.trans (hlt e he)
      have hne : k ≠ ke := fun h => by rw [h] at h1; omega
      rw [mapInsert, if_pos h1]
      by_cases hk : k' = k
      · subst hk; simp [mapFind, hne, hnone]
      · simp [mapFind, hk]
    by_cases h2 : k = ke
    · subst h2
      rw [mapInsert, if_neg h1, if_pos rfl]
      simp [mapFind]
    · rw [mapInsert, if_neg h1, if_neg h2, mapFind, ih hrest]
      by_cases hk : k' = ke
      · subst hk
        have : k' ≠ k := fun h => h2 h.symm
        simp [mapFind, this]
      · simp [mapFind, hk, h2]

theorem mapFind_mapErase (k k' : UInt32) :
    mapFind (mapErase k m) k' = if k' = k then none else mapFind m k' := by
  induction m with
  | nil => simp [mapErase, mapFind]
  | cons e rest ih =>
    obtain ⟨ke, ve⟩ := e
    by_cases hk : ke = k
    · subst hk
      have he : mapErase ke ((ke, ve) :: rest) = mapErase ke rest := by simp [mapErase]
      rw [he, ih]
      by_cases h : k' = ke <;> simp [mapFind, h]
    · have he : mapErase k ((ke, ve) :: rest) = (ke, ve) :: mapErase k rest := by
        simp [mapErase, hk]
      rw [he, mapFind, ih]
      by_cases h : k' = ke
      · subst h; simp [hk, mapFind]
      · simp [h, mapFind]

theorem perm_mapInsert {k : UInt32} {v : Nat} (hm : m.Sorted) (h : mapFind m k = none) :
    (mapInsert k v m).Perm ((k, v) :: m) := by
  induction m with
  | nil => rfl
  | cons e rest ih =>
    obtain ⟨ke, ve⟩ := e
    have hne : k ≠ ke := fun he => by simp [mapFind, he] at h
    have hrest : mapFind rest k = none := by simpa [mapFind, hne] using h
    rw [mapInsert, if_neg hne]
    split_ifs
    · rfl
    · exact ((ih (sorted_cons.1 hm).2 hrest).cons _).trans (List.Perm.swap _ _ _)

theorem entrySum_mapInsert {k : UInt32} {v : Nat} (hm : m.Sorted) (h : mapFind m k = none) :
    entrySum (mapInsert k v m) = entrySum m + k.toNat * v := by
  rw [entrySum, ((perm_mapInsert hm h).map _).sum_eq]
  simp [entrySum, Nat.add_comm]

/-- Erasing a key takes its entry out of the sum. -/
theorem entrySum_mapErase (k : UInt32) (hm : m.Sorted) :
    entrySum m = entrySum (mapErase k m) + k.toNat * (mapFind m k).getD 0 := by
  induction m with
  | nil => rfl
  | cons e rest ih =>
    obtain ⟨ke, ve⟩ := e
    obtain ⟨hlt, hrest⟩ := sorted_cons.1 hm
    by_cases hk : ke = k
    · subst hk
      -- the later keys are larger, so `ke` is in the rest no more
      have hnone : mapFind rest ke = none := mapFind_eq_none_of_lt hlt
      have he : mapErase ke ((ke, ve) :: rest) = mapErase ke rest := by simp [mapErase]
      have h' := ih hrest
      rw [hnone, Option.getD_none, Nat.mul_zero, Nat.add_zero] at h'
      rw [he, ← h']
      simp [entrySum, mapFind, Nat.add_comm]
    · have he : mapErase k ((ke, ve) :: rest) = (ke, ve) :: mapErase k rest := by
        simp [mapErase, hk]
      rw [he]
      simp only [entrySum, List.map_cons, List.sum_cons, mapFind, Ne.symm hk, if_false] at ih ⊢
      rw [ih hrest]
      omega

end Map

/-! ## The histogram -/

/-- The update of `hash_histogram` for a hash with `count` pairs: a new entry `(count, 1)`, or
the old number plus one, through `erase` and `insert`. -/
def bump (m : CountMap) (count : UInt32) : CountMap :=
  match mapFind m count with
  | none => mapInsert count 1 m
  | some oldNumber => mapInsert count (oldNumber + 1) (mapErase count m)

/-- What the loop of `histogram` keeps. -/
structure Histogram where
  totalHashes : Nat
  totalDistinctHashes : Nat
  hashHistogram : CountMap

/-- One turn of the loop, for a hash with `count` pairs; the histogram's key is the count
truncated to `uint32_t`. -/
def Histogram.add (h : Histogram) (count : Nat) : Histogram where
  totalHashes := h.totalHashes + count
  totalDistinctHashes := if count = 1 then h.totalDistinctHashes + 1 else h.totalDistinctHashes
  hashHistogram := bump h.hashHistogram count.toUInt32

/-- The lines printed after the totals, one per entry in key order: `duplicates`,
`distinct_hashes`, and their product as `total`. -/
def histogramLines (m : CountMap) : List (Nat × Nat × Nat) :=
  m.map fun e => (e.1.toNat, e.2, e.1.toNat * e.2)

/-- Modelled from the spec: `scan_manager_t::find_hash` (its body is not in src/) returns the
pairs of the hash data store's `find`, with each source id replaced by its file hash; source ids
are interned one per file hash, so the set has as many pairs as `find`'s. From the current
`pair`, the loop of `histogram`, `none` if `fuel` turns are not enough. -/
def histogramLoop (cfg : Config) (db : Db) :
    Nat → Bool × Bytes → Histogram → Option (Except Fault Histogram)
  | _, (false, _), h => some (.ok h)
  | 0, (true, _), _ => none
  | fuel + 1, (true, key), h =>
    match find cfg db key with
    | .error f => some (.error f)
    | .ok (_, _, _, pairs) =>
      match findNext db key with
      | .error f => some (.error f)
      | .ok pair => histogramLoop cfg db fuel pair (h.add pairs.card)

/-- `histogram`: the loop from `hash_begin()`, with no hash counted yet. -/
def histogram (cfg : Config) (db : Db) (fuel : Nat) : Option (Except Fault Histogram) :=
  histogramLoop cfg db fuel (findBegin db) ⟨0, 0, []⟩

/-! ## The histogram of a list of counts -/

/-- The map holds, for each key, the number `f` gives it, and no entry where that is 0. -/
def Represents (m : CountMap) (f : UInt32 → Nat) : Prop :=
  m.Sorted ∧ ∀ k, mapFind m k = if f k = 0 then none else some (f k)

theorem represents_bump {m : CountMap} {f : UInt32 → Nat} (h : Represents m f) (c : UInt32) :
    Represents (bump m c) (Function.update f c (f c + 1)) := by
  obtain ⟨hs, hf⟩ := h
  unfold bump
  cases hc : mapFind m c with
  | none =>
    refine ⟨sorted_mapInsert _ _ hs, fun k => ?_⟩
    have h0 : f c = 0 := by
      by_contra hne
      rw [hf c, if_neg hne] at hc
      cases hc
    rw [mapFind_mapInsert _ _ hs, hc, hf k]
    by_cases hk : k = c
    · subst hk; simp [h0]
    · simp [hk]
  | some old =>
    have hfc : f c ≠ 0 := by
      intro h0
      rw [hf c, if_pos h0] at hc
      cases hc
    have hold : f c = old := by
      rw [hf c, if_neg hfc] at hc
      exact Option.some.inj hc
    have hs' := sorted_mapErase c hs
    refine ⟨sorted_mapInsert _ _ hs', fun k => ?_⟩
    rw [mapFind_mapInsert _ _ hs', mapFind_mapErase, if_pos rfl]
    by_cases hk : k = c
    · subst hk; simp [hold]
    · simp [hk, mapFind_mapErase, hf k]

theorem entrySum_bump {m : CountMap} (hm : m.Sorted) (c : UInt32) :
    entrySum (bump m c) = entrySum m + c.toNat := by
  unfold bump
  cases hc : mapFind m c with
  | none => rw [entrySum_mapInsert hm hc, Nat.mul_one]
  | some old =>
    have hnone : mapFind (mapErase c m) c = none := by rw [mapFind_mapErase, if_pos rfl]
    rw [entrySum_mapInsert (sorted_mapErase c hm) hnone, entrySum_mapErase c hm, hc]
    rw [Option.getD_some, Nat.mul_succ, Nat.add_assoc]

/-- The histogram of the counts, added to `h`. -/
theorem foldl_add (counts : List Nat) {h : Histogram} {f : UInt32 → Nat}
    (hf : Represents h.hashHistogram f) :
    (counts.foldl Histogram.add h).totalHashes = h.totalHashes + counts.sum ∧
    (counts.foldl Histogram.add h).totalDistinctHashes =
      h.totalDistinctHashes + counts.count 1 ∧
    Represents (counts.foldl Histogram.add h).hashHistogram
      (fun k => f k + (counts.filter (·.toUInt32 = k)).length) ∧
    entrySum (counts.foldl Histogram.add h).hashHistogram =
      entrySum h.hashHistogram + (counts.map (·.toUInt32.toNat)).sum := by
  induction counts generalizing h f with
  | nil => simpa using hf
  | cons c rest ih =>
    obtain ⟨h1, h2, h3, h4⟩ := ih (h := h.add c) (represents_bump hf c.toUInt32)
    refine ⟨?_, ?_, ?_, ?_⟩
    · rw [List.foldl_cons, h1]; simp [Histogram.add, Nat.add_assoc]
    · rw [List.foldl_cons, h2]
      by_cases hc : c = 1 <;> simp [Histogram.add, hc, List.count_cons, Nat.add_assoc,
        Nat.add_comm 1]
    · refine (congrArg _ (funext fun k => ?_)).mp h3
      by_cases hk : k = c.toUInt32
      · subst hk; simp [List.filter_cons, Function.update_same]; omega
      · simp [List.filter_cons, Function.update_noteq hk, Ne.symm hk]
    · rw [List.foldl_cons, h4, Histogram.add, entrySum_bump hf.1]
      simp [Nat.add_assoc]

/-! ## The loop over a store -/

section Loop

variable {cfg : Config} {db : Db}

/-- No hash of a reachable store holds `2^32` pairs: no call takes a hash past two pairs or past
its `uint32_t` limit. -/
theorem card_foundPairs_lt (h : Reachable cfg db) (H : Bytes) :
    (foundPairs cfg db H).card < 2 ^ 32 := by
  obtain ⟨calls, hv, changes, hrun⟩ := h
  obtain ⟨db', hrun', hr⟩ := runInserts_refines (refines_empty cfg) hv
  rw [show LmdbChanges.zero = Store.empty.changes from rfl, hrun'] at hrun
  cases hrun
  by_cases hH : H = []
  · simp [foundPairs, find, hH]
  · rw [foundPairs_eq hH (hr H)]
    have hle : (pairsOf ((Store.empty.run cfg calls).entries H)).card ≤
        max 2 cfg.maxIdOffsetPairs.toNat :=
      run_card_le_max H calls Store.empty (by simp [pairsOf, Store.empty])
    have hcap : cfg.maxIdOffsetPairs.toNat < 2 ^ 32 := cfg.maxIdOffsetPairs.toNat_lt_size
    omega

/-- One turn of the loop counts the pairs `find` returns for the current hash. -/
theorem histogramLoop_step {key : Bytes} {r : Bool × UInt64 × StdString × Finset (UInt64 × UInt64)}
    {pair : Bool × Bytes} {fuel : Nat} {h : Histogram} (hres : find cfg db key = .ok r)
    (hnext : findNext db key = .ok pair) :
    histogramLoop cfg db (fuel + 1) (true, key) h =
      histogramLoop cfg db fuel pair (h.add (foundPairs cfg db key).card) := by
  simp only [histogramLoop, foundPairs, hres, hnext]

/-- From a hash, the loop counts it and every later hash, each with the pairs `find` returns. -/
theorem histogramLoop_of_mem (hne : ∀ k ∈ db.keys, k ≠ [])
    (hfind : ∀ H ∈ db.keys, ∃ r, find cfg db H = .ok r) :
    ∀ (post pre : List Bytes) (key : Bytes) (fuel : Nat) (h : Histogram),
      db.keys = pre ++ key :: post → post.length < fuel →
      histogramLoop cfg db fuel (true, key) h =
        some (.ok (((key :: post).map fun H => (foundPairs cfg db H).card).foldl Histogram.add h))
  | _, _, _, 0, _, _, hf => absurd hf (Nat.not_lt_zero _)
  | [], pre, key, fuel + 1, h, hk, _ => by
    have hmem : key ∈ db.keys := hk ▸ List.mem_append_right _ (List.mem_cons_self _ _)
    obtain ⟨_, hres⟩ := hfind key hmem
    rw [histogramLoop_step hres (findNext_of_mem (hne key hmem) hk)]
    simp [histogramLoop]
  | next :: post, pre, key, fuel + 1, h, hk, hf => by
    have hmem : key ∈ db.keys := hk ▸ List.mem_append_right _ (List.mem_cons_self _ _)
    obtain ⟨_, hres⟩ := hfind key hmem
    rw [histogramLoop_step hres (findNext_of_mem (hne key hmem) hk)]
    exact histogramLoop_of_mem hne hfind post (pre ++ [key]) next fuel _ (by simp [hk])
      (by simpa using hf)

/-- With as many turns as hashes, `histogram` counts the store's hashes in order. -/
theorem histogram_eq (hne : ∀ k ∈ db.keys, k ≠ [])
    (hfind : ∀ H ∈ db.keys, ∃ r, find cfg db H = .ok r) {fuel : Nat}
    (hfuel : db.keys.length ≤ fuel) :
    histogram cfg db fuel =
      some (.ok ((db.keys.map fun H => (foundPairs cfg db H).card).foldl Histogram.add ⟨0, 0, []⟩)) := by
  unfold histogram findBegin Db.first
  cases hk : db.keys with
  | nil => cases fuel <;> rfl
  | cons key post =>
    rw [hk] at hfuel
    exact histogramLoop_of_mem hne hfind post [] key fuel _ hk hfuel

end Loop

/-- The "total" fields of the printed lines add up to the sum of count times hashes. -/
theorem sum_histogramLines (m : CountMap) :
    ((histogramLines m).map fun l => l.2.2).sum = entrySum m := by
  simp only [histogramLines, entrySum, List.map_map]
  rfl

/-- On every reachable store, `histogram` ends within as many turns as there are hashes and does
not fault. No hash holds `2^32` pairs, so the `uint32_t` key never wraps: the map holds for each
count the number of hashes with that many pairs, and no entry for a count no hash has.
`total_hashes` is the sum of the pair counts, and so of the printed "total" fields, and
`total_distinct_hashes` the number of hashes with one pair. -/
theorem histogram_counts (cfg : Config) (db : Db) (h : Reachable cfg db) :
    ∃ r : Histogram, (∀ fuel, db.keys.length ≤ fuel → histogram cfg db fuel = some (.ok r)) ∧
      (∀ H ∈ db.keys, (foundPairs cfg db H).card < 2 ^ 32) ∧
      (∀ k : UInt32, mapFind r.hashHistogram k =
        if (db.keys.filter fun H => (foundPairs cfg db H).card = k.toNat).length = 0 then none
        else some (db.keys.filter fun H => (foundPairs cfg db H).card = k.toNat).length) ∧
      r.totalHashes = (db.keys.map fun H => (foundPairs cfg db H).card).sum ∧
      ((histogramLines r.hashHistogram).map fun l => l.2.2).sum = r.totalHashes ∧
      r.totalDistinctHashes = (db.keys.filter fun H => (foundPairs cfg db H).card = 1).length := by
  have hlt := card_foundPairs_lt h
  have hne := h.keys_ne_nil
  obtain ⟨σ, hr⟩ := h.refines
  have hfind : ∀ H ∈ db.keys, ∃ r, find cfg db H = .ok r := fun H hH =>
    ⟨_, find_spec (hne H hH) (hr H)⟩
  obtain ⟨h1, h2, h3, h4⟩ := foldl_add (db.keys.map fun H => (foundPairs cfg db H).card)
    (h := ⟨0, 0, []⟩) (f := fun _ => 0) ⟨List.sorted_nil, fun _ => rfl⟩
  -- below `2^32` the key is the count
  have hn : ∀ H, (foundPairs cfg db H).card.toUInt32.toNat = (foundPairs cfg db H).card := fun H => by
    rw [nat_toUInt32_toNat, Nat.mod_eq_of_lt (hlt H)]
  have hkey : ∀ (H : Bytes) (k : UInt32),
      (foundPairs cfg db H).card.toUInt32 = k ↔ (foundPairs cfg db H).card = k.toNat := fun H k =>
    ⟨fun he => hn H ▸ congrArg UInt32.toNat he, fun he => UInt32.toNat.inj ((hn H).trans he)⟩
  have hcounts : ((db.keys.map fun H => (foundPairs cfg db H).card).map fun n => n.toUInt32.toNat) =
      db.keys.map fun H => (foundPairs cfg db H).card := by
    rw [List.map_map]
    exact List.map_congr_left fun H _ => hn H
  refine ⟨_, fun fuel hf => histogram_eq hne hfind hf, fun H _ => hlt H, fun k => ?_, ?_, ?_, ?_⟩
  · have hk : ((db.keys.map fun H => (foundPairs cfg db H).card).filter fun n => n.toUInt32 = k) =
        (db.keys.filter fun H => (foundPairs cfg db H).card = k.toNat).map
          fun H => (foundPairs cfg db H).card := by
      rw [List.filter_map]
      exact congrArg _ (List.filter_congr fun H _ => by simp [hkey])
    rw [h3.2 k]
    simp only [Nat.zero_add, hk, List.length_map]
  · simpa using h1
  · rw [sum_histogramLines, h4, h1, hcounts]
    rfl
  · rw [h2, List.count, List.countP_eq_length_filter, List.filter_map, List.length_map]
    exact (Nat.zero_add _).trans (congrArg _ (List.filter_congr fun H _ =>
      Bool.eq_iff_iff.2 (by rw [Function.comp, beq_iff_eq, decide_eq_true_iff])))

/-- The histogram of a store with a hash of one pair and a hash of two. -/
theorem histogram_counts_two_hashes :
    Reachable sampleConfig sampleStore ∧
    ∃ r : Histogram,
      (∀ fuel, sampleStore.keys.length ≤ fuel →
        histogram sampleConfig sampleStore fuel = some (.ok r)) ∧
      (∀ H ∈ sampleStore.keys, (foundPairs sampleConfig sampleStore H).card < 2 ^ 32) ∧
      (∀ k : UInt32, mapFind r.hashHistogram k =
        if (sampleStore.keys.filter fun H =>
            (foundPairs sampleConfig sampleStore H).card = k.toNat).length = 0 then none
        else some (sampleStore.keys.filter fun H =>
            (foundPairs sampleConfig sampleStore H).card = k.toNat).length) ∧
      r.totalHashes =
        (sampleStore.keys.map fun H => (foundPairs sampleConfig sampleStore H).card).sum ∧
      ((histogramLines r.hashHistogram).map fun l => l.2.2).sum = r.totalHashes ∧
      r.totalDistinctHashes =
        (sampleStore.keys.filter fun H =>
          (foundPairs sampleConfig sampleStore H).card = 1).length :=
  ⟨sampleStore_reachable, histogram_counts _ _ sampleStore_reachable⟩

end Commands
end HashDb

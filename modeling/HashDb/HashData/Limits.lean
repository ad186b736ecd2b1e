import HashDb.HashData.Reimport

/-!
# What the limits of none and of one keep

`find_keeps_first_pairs` gives the pairs a hash keeps under a limit of two or more: the first
distinct ones offered, up to the limit. The two other limits do not follow that policy, for
reasons in the two branches of `insert` (`Entry.AtMax`):

* no limit (`max_id_offset_pairs = 0`): the Type 1 branch adds a second pair, and the Type 2
  branch then finds `count >= 0` and adds none. A hash keeps the first two distinct pairs
  offered, as under a limit of two (`run_pairs_of_no_limit`);
* a limit of one: the Type 1 branch is at its limit and rewrites its record with the call's
  pair whenever the metadata changes. A hash keeps the pair of the last accepted call whose
  metadata differs from the accepted call's before it (`lastChange`), the first accepted call
  counting as a change (`run_pairs_of_limit_one`).

`find_pairs_of_limit_zero_or_one` says so of what `find` returns after any run of valid calls.

Whatever the limit, no call takes a hash out of the store, and under every limit but one no call
takes a pair away from a hash (`inserts_lose_no_hash`): the limit of one is the only one under
which `insert` loses a source it had stored. Under every limit `insert` returns the source count
of the hash after it (`insert_returns_source_count`).
-/

namespace HashDb
namespace HashData

open Lmdb Entry

/-- Under a limit of one, the pair a hash keeps after the calls: that of the last call accepted
for `H` whose metadata differs from the metadata before it, `prev` being the metadata before the
calls (`none` for an absent hash); `none` if no call changed it. -/
def lastChange (cfg : Config) (H : Bytes) :
    Option (UInt64 × StdString) → List InsertCall → Option (UInt64 × UInt64)
  | _, [] => none
  | prev, c :: cs =>
    if c.binaryHash = H ∧ c.Accepted cfg then
      (lastChange cfg H (some (c.entropy, c.blockLabel)) cs).or
        (if prev = some (c.entropy, c.blockLabel) then none else some c.pair)
    else lastChange cfg H prev cs

/-- The metadata of an entry. -/
def metadataOf (e : Option Entry) : Option (UInt64 × StdString) :=
  e.map fun ent => (ent.entropy, ent.blockLabel)

section Limits

variable {cfg : Config} {pair : UInt64 × UInt64} {entropy : UInt64} {blockLabel : StdString}

/-- A call leaves a pair or more. -/
theorem card_step_pos (e : Option Entry) (he : ∀ ent ∈ e, 0 < ent.pairs.card) :
    0 < (step cfg pair entropy blockLabel e).pairs.card := by
  cases e with
  | none => exact Finset.card_pos.2 (Finset.singleton_nonempty _)
  | some ent =>
    have hne := Finset.card_pos.1 (he ent rfl)
    refine Finset.card_pos.2 ?_
    simp only [step]
    split_ifs
    exacts [hne, Finset.singleton_nonempty _, hne, Finset.insert_nonempty _ _]

/-- With no limit, a call adds its pair unless present or the hash has two pairs already. -/
theorem step_pairs_of_no_limit (hcap : cfg.maxIdOffsetPairs = 0) (e : Option Entry)
    (he : ∀ ent ∈ e, 0 < ent.pairs.card) :
    (step cfg pair entropy blockLabel e).pairs =
      if pair ∈ pairsOf e ∨ 2 ≤ (pairsOf e).card then pairsOf e
      else Insert.insert pair (pairsOf e) := by
  cases e with
  | none => simp [step, pairsOf]
  | some ent =>
    have hpos := he ent rfl
    simp only [pairsOf]
    by_cases hp : pair ∈ ent.pairs
    · simp [step, hp]
    by_cases h1 : ent.pairs.card = 1
    · simp [step, hp, AtMax, h1, hcap]
    · have hm : AtMax cfg ent := by simp [AtMax, h1, hcap]
      simp [step, hp, hm, h1, show 2 ≤ ent.pairs.card by omega]

/-- Under a limit of one, a call on an absent or one-pair entry keeps the pair on the same
metadata, and puts its own in place otherwise. -/
theorem step_pairs_of_limit_one (hcap : cfg.maxIdOffsetPairs = 1) (e : Option Entry)
    (he : ∀ ent ∈ e, ent.pairs.card = 1) :
    (step cfg pair entropy blockLabel e).pairs =
      if metadataOf e = some (entropy, blockLabel) then pairsOf e else {pair} := by
  cases e with
  | none => simp [step, metadataOf]
  | some ent =>
    rw [step_of_limit_one hcap (he ent rfl)]
    simp [metadataOf, pairsOf, SameData, eq_comm]

/-- With no limit, a run keeps for each hash the first two distinct pairs offered for it. -/
theorem run_pairs_of_no_limit (hcap : cfg.maxIdOffsetPairs = 0) (H : Bytes) :
    ∀ (calls : List InsertCall) (σ : Store), (∀ ent ∈ σ.entries H, 0 < ent.pairs.card) →
      pairsOf ((σ.run cfg calls).entries H) =
        keptPairs 2 (pairsOf (σ.entries H)) (offeredPairs cfg H calls)
  | [], _, _ => rfl
  | c :: cs, σ, h => by
    have hpos : ∀ ent ∈ (σ.insert cfg c).2.entries H, 0 < ent.pairs.card := fun ent hent => by
      rw [insert_entries] at hent
      split_ifs at hent
      · exact Option.some.inj hent ▸ card_step_pos _ h
      · exact h ent hent
    rw [Store.run_cons, run_pairs_of_no_limit hcap H cs _ hpos, insert_entries]
    by_cases hc : c.binaryHash = H ∧ c.Accepted cfg
    · simp [offeredPairs, List.filter_cons, hc, keptPairs, pairsOf,
        step_pairs_of_no_limit hcap _ h]
    · simp [offeredPairs, List.filter_cons, hc]

/-- Under a limit of one, a run keeps for each hash the pair of the last call that changed its
metadata, or the pair it had if none did. -/
theorem run_pairs_of_limit_one (hcap : cfg.maxIdOffsetPairs = 1) (H : Bytes) :
    ∀ (calls : List InsertCall) (σ : Store), (∀ ent ∈ σ.entries H, ent.pairs.card = 1) →
      pairsOf ((σ.run cfg calls).entries H) =
        (lastChange cfg H (metadataOf (σ.entries H)) calls).elim (pairsOf (σ.entries H))
          fun p => {p}
  | [], _, _ => rfl
  | c :: cs, σ, h => by
    rw [Store.run_cons, lastChange]
    by_cases hc : c.binaryHash = H ∧ c.Accepted cfg
    · have he : (σ.insert cfg c).2.entries H =
          some (step cfg c.pair c.entropy c.blockLabel (σ.entries H)) := by
        rw [insert_entries, if_pos hc]
      have h1 : ∀ ent ∈ (σ.insert cfg c).2.entries H, ent.pairs.card = 1 := fun ent hent => by
        rw [he] at hent
        exact Option.some.inj hent ▸ card_step_of_limit_one hcap h
      have hmeta : metadataOf (some (step cfg c.pair c.entropy c.blockLabel (σ.entries H))) =
          some (c.entropy, c.blockLabel) := by simp [metadataOf]
      rw [if_pos hc, run_pairs_of_limit_one hcap H cs _ h1, he, hmeta]
      cases lastChange cfg H (some (c.entropy, c.blockLabel)) cs with
      | some p => rfl
      | none =>
        show (step cfg c.pair c.entropy c.blockLabel (σ.entries H)).pairs = _
        rw [step_pairs_of_limit_one hcap _ h, Option.none_or]
        split_ifs <;> rfl
    · have he : (σ.insert cfg c).2.entries H = σ.entries H := by rw [insert_entries, if_neg hc]
      rw [if_neg hc, run_pairs_of_limit_one hcap H cs _ (he ▸ h), he]

/-- No call removes the entry of a hash. -/
theorem run_entries_isSome (H : Bytes) :
    ∀ (calls : List InsertCall) (σ : Store), (σ.entries H).isSome →
      ((σ.run cfg calls).entries H).isSome
  | [], _, h => h
  | c :: cs, σ, h => by
    refine run_entries_isSome H cs _ ?_
    rw [insert_entries]
    split_ifs
    · rfl
    · exact h

/-- Under a limit other than one, no run takes a pair away from a hash. -/
theorem run_pairs_mono (hcap : cfg.maxIdOffsetPairs ≠ 1) (H : Bytes) :
    ∀ (calls : List InsertCall) (σ : Store),
      pairsOf (σ.entries H) ⊆ pairsOf ((σ.run cfg calls).entries H)
  | [], _ => Finset.Subset.refl _
  | c :: cs, σ => by
    refine Finset.Subset.trans ?_ (run_pairs_mono hcap H cs _)
    rw [insert_entries]
    split_ifs
    · cases σ.entries H with
      | none => exact Finset.empty_subset _
      | some ent => exact pairs_subset_step hcap ent
    · exact Finset.Subset.refl _

end Limits

/-- With no limit, after any run of valid calls from the empty store, `find` returns for each
hash the first two distinct pairs offered for it, as a limit of two would. Under a limit of one,
it returns the pair of the last accepted call whose metadata differs from the accepted call's
before it, the first accepted call counting as such: not the first pair offered. -/
theorem find_pairs_of_limit_zero_or_one (cfg : Config) (calls : List InsertCall)
    (hv : ∀ c ∈ calls, c.Valid) :
    ∃ db changes, runInserts cfg calls Db.empty LmdbChanges.zero = .ok (db, changes) ∧
      (cfg.maxIdOffsetPairs = 0 → ∀ H, H ≠ [] →
        foundPairs cfg db H = keptPairs 2 ∅ (offeredPairs cfg H calls)) ∧
      (cfg.maxIdOffsetPairs = 1 → ∀ H, H ≠ [] →
        foundPairs cfg db H = (lastChange cfg H none calls).elim ∅ fun p => {p}) := by
  obtain ⟨db, hrun, hr⟩ := runInserts_refines (refines_empty cfg) hv
  have hnone : ∀ H, ∀ ent ∈ Store.empty.entries H, False := fun _ _ h => by cases h
  refine ⟨db, _, hrun, fun hcap H hH => ?_, fun hcap H hH => ?_⟩
  · rw [foundPairs_eq hH (hr H), run_pairs_of_no_limit hcap H calls Store.empty
      fun ent he => (hnone H ent he).elim]
    rfl
  · rw [foundPairs_eq hH (hr H), run_pairs_of_limit_one hcap H calls Store.empty
      fun ent he => (hnone H ent he).elim]
    rfl

/-- A second pair with new metadata, then a third with the same: the second pair stays. -/
theorem find_pairs_of_limit_zero_or_one_three :
    let calls : List InsertCall :=
      [⟨[1], 1, 0, 7, ⟨[], by decide⟩⟩, ⟨[1], 2, 512, 9, ⟨[], by decide⟩⟩,
        ⟨[1], 3, 1024, 9, ⟨[], by decide⟩⟩]
    (∀ c ∈ calls, c.Valid) ∧
      ∃ db changes, runInserts ⟨512, 1, by decide⟩ calls Db.empty LmdbChanges.zero =
          .ok (db, changes) ∧
        ((⟨512, 1, by decide⟩ : Config).maxIdOffsetPairs = 0 → ∀ H, H ≠ [] →
          foundPairs ⟨512, 1, by decide⟩ db H =
            keptPairs 2 ∅ (offeredPairs ⟨512, 1, by decide⟩ H calls)) ∧
        ((⟨512, 1, by decide⟩ : Config).maxIdOffsetPairs = 1 → ∀ H, H ≠ [] →
          foundPairs ⟨512, 1, by decide⟩ db H =
            (lastChange ⟨512, 1, by decide⟩ H none calls).elim ∅ fun p => {p}) := by
  intro calls
  have hv : ∀ c ∈ calls, c.Valid := by decide
  exact ⟨hv, find_pairs_of_limit_zero_or_one _ calls hv⟩

/-- From any reachable store, a run of valid calls raises none of `insert`'s faults and keeps
every hash the store had; under every limit but one it also keeps every pair `find` returned for a hash. -/
theorem inserts_lose_no_hash {cfg : Config} {db : Db} (hdb : Reachable cfg db)
    (changes : LmdbChanges) {calls : List InsertCall} (hv : ∀ c ∈ calls, c.Valid) :
    ∃ db' changes', runInserts cfg calls db changes = .ok (db', changes') ∧
      (∀ H ∈ db.keys, H ∈ db'.keys) ∧
      (cfg.maxIdOffsetPairs ≠ 1 → ∀ H, foundPairs cfg db H ⊆ foundPairs cfg db' H) := by
  obtain ⟨σ, hσ⟩ := hdb.refines
  obtain ⟨db', hrun, hr⟩ := runInserts_refines (refines_with changes hσ) hv
  refine ⟨db', _, hrun, fun H hH => ?_, fun hcap H => ?_⟩
  · -- a hash of the store has an entry, which the run keeps
    have h1 : (σ.entries H).isSome :=
      Option.ne_none_iff_isSome.1 fun hn => Db.mem_keys_iff.1 hH ((hσ H).eq_nil_iff.2 hn)
    have h2 : (((⟨σ.entries, changes⟩ : Store).run cfg calls).entries H).isSome :=
      run_entries_isSome H calls _ h1
    exact Db.mem_keys_iff.2 fun hn => Option.ne_none_iff_isSome.2 h2 ((hr H).eq_nil_iff.1 hn)
  · by_cases hH : H = []
    · simp [foundPairs, find, hH]
    · rw [foundPairs_eq hH (hσ H), foundPairs_eq hH (hr H)]
      exact run_pairs_mono hcap H calls ⟨σ.entries, changes⟩

/-- A second call on a hash of a one-call store, with no limit. -/
theorem inserts_lose_no_hash_two :
    let cfg : Config := ⟨512, 0, by decide⟩
    let db : Db := (runInserts cfg [⟨[1], 1, 0, 0, ⟨[], by decide⟩⟩] Db.empty .zero).toOption.elim
      Db.empty Prod.fst
    let calls : List InsertCall := [⟨[1], 2, 512, 7, ⟨[], by decide⟩⟩]
    Reachable cfg db ∧ (∀ c ∈ calls, c.Valid) ∧
      ∃ db' changes', runInserts cfg calls db .zero = .ok (db', changes') ∧
        (∀ H ∈ db.keys, H ∈ db'.keys) ∧
        (cfg.maxIdOffsetPairs ≠ 1 → ∀ H, foundPairs cfg db H ⊆ foundPairs cfg db' H) := by
  intro cfg db calls
  have hdb : Reachable cfg db := ⟨[⟨[1], 1, 0, 0, ⟨[], by decide⟩⟩], by decide, _, rfl⟩
  have hv : ∀ c ∈ calls, c.Valid := by decide
  exact ⟨hdb, hv, inserts_lose_no_hash hdb .zero hv⟩

/-- `insert` returns the source count. On a reachable store a valid call raises none of its
faults; with an accepted offset it returns the number of source pairs its hash holds afterwards,
one or more, which `find_count` then reports and `find` lists; with a rejected offset it returns
0 and leaves the records. -/
theorem insert_returns_source_count {cfg : Config} {db : Db} (hdb : Reachable cfg db)
    (changes : LmdbChanges) {c : InsertCall} (hc : c.Valid) :
    ∃ n db' changes', insertCall cfg db changes c = .ok (n, db', changes') ∧
      (c.Accepted cfg → 0 < n ∧ findCount db' c.binaryHash = .ok n ∧
        (foundPairs cfg db' c.binaryHash).card = n) ∧
      (¬c.Accepted cfg → n = 0 ∧ db' = db) := by
  by_cases hf : c.Accepted cfg
  · obtain ⟨σ, hσ⟩ := hdb.refines
    obtain ⟨db', hins, hr⟩ := insertCall_refines (refines_with changes hσ) hc
    refine ⟨_, db', _, hins, fun _ => ?_, fun h => absurd hf h⟩
    -- the call leaves its hash the entry `step` gives, and returns that entry's pair count
    have hH := hr c.binaryHash
    simp only [Store.insert, if_pos hf, Function.update_same] at hH ⊢
    rw [findCount_spec hc.1 hH, foundPairs_eq hc.1 hH]
    exact ⟨card_step_pos _ fun ent he => (he ▸ hσ c.binaryHash).card_pos, rfl, rfl⟩
  · exact ⟨0, db, _, insert_reject hc.2 hc.1 hf, fun h => absurd h hf, fun _ => ⟨rfl, rfl⟩⟩

/-- A second pair offered for a hash of a one-call store. -/
theorem insert_returns_source_count_two :
    let cfg : Config := ⟨512, 0, by decide⟩
    let db : Db := (runInserts cfg [⟨[1], 1, 0, 0, ⟨[], by decide⟩⟩] Db.empty .zero).toOption.elim
      Db.empty Prod.fst
    let c : InsertCall := ⟨[1], 2, 512, 7, ⟨[], by decide⟩⟩
    Reachable cfg db ∧ c.Valid ∧
      ∃ n db' changes', insertCall cfg db .zero c = .ok (n, db', changes') ∧
        (c.Accepted cfg → 0 < n ∧ findCount db' c.binaryHash = .ok n ∧
          (foundPairs cfg db' c.binaryHash).card = n) ∧
        (¬c.Accepted cfg → n = 0 ∧ db' = db) := by
  intro cfg db c
  have hdb : Reachable cfg db := ⟨[⟨[1], 1, 0, 0, ⟨[], by decide⟩⟩], by decide, _, rfl⟩
  have hc : c.Valid := by decide
  exact ⟨hdb, hc, insert_returns_source_count hdb .zero hc⟩

end HashData
end HashDb

import HashDb.HashData.Run
import Mathlib.Algebra.BigOperators.Group.Finset

/-!
# The policy of `insert`, over whole runs

Facts about `Entry.step`, `Entry.tally` and runs of the abstract store; what the C++ store
guarantees follows from them through `runInserts_refines` (HashData/Properties).

* `step_step`: a second identical call leaves the entry the first one left;
* `run_entries_of_lastAccepted_none` / `_some`: a hash has an entry exactly when some call for
  it was accepted, and its metadata is that of the last such call;
* `Counted`: the counter identities, kept by every call (`Counted.insert`) and so by every
  run from the empty store (`counted_run`);
* `run_pairs_of_two_le`: with a limit of two or more, a hash keeps the first distinct pairs
  offered for it, up to the limit (`keptPairs`, the spec's policy).
-/

namespace HashDb
namespace HashData

open Lmdb Entry

namespace Entry

section Step

variable {cfg : Config} {pair : UInt64 × UInt64} {entropy : UInt64} {blockLabel : StdString}

/-- A second identical call leaves the entry the first one left: the pair is then present, or
the entry is at its limit with the call's metadata. -/
theorem step_step (e : Option Entry) :
    step cfg pair entropy blockLabel (some (step cfg pair entropy blockLabel e)) =
      step cfg pair entropy blockLabel e := by
  cases e with
  | none => simp [step]
  | some ent =>
    by_cases hp : pair ∈ ent.pairs
    · simp [step, hp]
    by_cases hm : AtMax cfg ent
    · by_cases h1 : ent.pairs.card = 1 ∧ ¬SameData entropy blockLabel ent
      · simp [step, hp, hm, h1]
      · have hm' : AtMax cfg ⟨entropy, blockLabel, ent.pairs⟩ := by simpa [AtMax] using hm
        simp only [step, hp, hm, hm', h1, if_false, if_true]
        simp [SameData]
    · simp [step, hp, hm]

end Step

section Tally

variable (cfg : Config) (pair : UInt64 × UInt64) (entropy : UInt64) (blockLabel : StdString)
  (e : Option Entry) (c : LmdbChanges)

theorem tally_dataInserted : (tally cfg pair entropy blockLabel e c).hashDataDataInserted =
    c.hashDataDataInserted + if e = none then 1 else 0 := by
  cases e with
  | none => rfl
  | some ent =>
    simp only [tally, tallySource, Option.some_ne_none, if_false, Nat.add_zero]
    split_ifs <;> rfl

/-- Each accepted call tallies one of `data_inserted`, `data_same`, `data_changed`. -/
theorem tally_data_sum :
    (tally cfg pair entropy blockLabel e c).hashDataDataInserted +
        (tally cfg pair entropy blockLabel e c).hashDataDataSame +
        (tally cfg pair entropy blockLabel e c).hashDataDataChanged =
      c.hashDataDataInserted + c.hashDataDataSame + c.hashDataDataChanged + 1 := by
  cases e with
  | none => simp only [tally]; omega
  | some ent => simp only [tally, tallySource]; split_ifs <;> simp only <;> omega

/-- Each accepted call tallies one of `source_inserted`, `source_already_present`,
`source_at_max`. -/
theorem tally_source_sum :
    (tally cfg pair entropy blockLabel e c).hashDataSourceInserted +
        (tally cfg pair entropy blockLabel e c).hashDataSourceAlreadyPresent +
        (tally cfg pair entropy blockLabel e c).hashDataSourceAtMax =
      c.hashDataSourceInserted + c.hashDataSourceAlreadyPresent + c.hashDataSourceAtMax + 1 := by
  cases e with
  | none => simp only [tally]; omega
  | some ent => simp only [tally, tallySource]; split_ifs <;> simp only <;> omega

/-- `source_inserted` counts exactly the pairs the call adds. -/
theorem tally_sourceInserted :
    (tally cfg pair entropy blockLabel e c).hashDataSourceInserted + sourceCount e =
      c.hashDataSourceInserted + (step cfg pair entropy blockLabel e).pairs.card := by
  cases e with
  | none => simp [tally, sourceCount, step]
  | some ent =>
    by_cases hp : pair ∈ ent.pairs
    · by_cases hm : AtMax cfg ent <;> simp [tally, tallySource, step, sourceCount, hp, hm] <;>
        split_ifs <;> rfl
    by_cases hm : AtMax cfg ent
    · have h1 : ent.pairs.card = 1 ∧ ¬SameData entropy blockLabel ent → ent.pairs.card = 1 := And.left
      simp only [tally, tallySource, step, sourceCount, hp, hm, if_true, if_false]
      split_ifs with hd h1' <;> simp_all
    · simp only [tally, tallySource, step, sourceCount, hp, hm, if_false]
      split_ifs <;> simp [Finset.card_insert_of_not_mem hp] <;> omega

theorem tally_invalid : (tally cfg pair entropy blockLabel e c).hashDataInvalidFileOffset =
    c.hashDataInvalidFileOffset := by
  cases e with
  | none => rfl
  | some ent => simp only [tally, tallySource]; split_ifs <;> rfl

end Tally

end Entry

/-! ## Counters -/

/-- Changing one summand of a sum over a key set the key joins. -/
theorem sum_insert_update (f : Bytes → Nat) (T : Finset Bytes) (H : Bytes) (v : Nat)
    (h0 : H ∉ T → f H = 0) :
    ∑ K ∈ Insert.insert H T, Function.update f H v K + f H = ∑ K ∈ T, f K + v := by
  rw [← Finset.sum_insert_of_eq_zero_if_not_mem h0,
    Finset.sum_update_of_mem (Finset.mem_insert_self H T),
    ← Finset.add_sum_erase _ _ (Finset.mem_insert_self H T), Finset.sdiff_singleton_eq_erase]
  omega

/-- The counter identities of an abstract store whose hashes are `keys`, after `accepted`
accepted calls and `rejected` rejected ones. -/
structure Counted (σ : Store) (keys : Finset Bytes) (accepted rejected : Nat) : Prop where
  /-- `keys` are the hashes with an entry. -/
  mem_keys : ∀ H, H ∈ keys ↔ σ.entries H ≠ none
  /-- `data_inserted` counts the hashes. -/
  dataInserted : σ.changes.hashDataDataInserted = keys.card
  /-- `source_inserted` counts the pairs of all hashes. -/
  sourceInserted : σ.changes.hashDataSourceInserted = ∑ H ∈ keys, sourceCount (σ.entries H)
  /-- One data counter per accepted call. -/
  data_sum : σ.changes.hashDataDataInserted + σ.changes.hashDataDataSame +
    σ.changes.hashDataDataChanged = accepted
  /-- One source counter per accepted call. -/
  source_sum : σ.changes.hashDataSourceInserted + σ.changes.hashDataSourceAlreadyPresent +
    σ.changes.hashDataSourceAtMax = accepted
  /-- One `invalid_file_offset` per rejected call. -/
  invalid : σ.changes.hashDataInvalidFileOffset = rejected

theorem counted_empty : Counted Store.empty ∅ 0 0 where
  mem_keys _ := by simp [Store.empty]
  dataInserted := rfl
  sourceInserted := rfl
  data_sum := rfl
  source_sum := rfl
  invalid := rfl

section Counted

variable {σ : Store} {T : Finset Bytes} {a r : Nat}

/-- One call keeps the counter identities. -/
theorem Counted.insert (h : Counted σ T a r) (cfg : Config) (c : InsertCall) :
    Counted (σ.insert cfg c).2 (if c.Accepted cfg then Insert.insert c.binaryHash T else T)
      (if c.Accepted cfg then a + 1 else a) (if c.Accepted cfg then r else r + 1) := by
  by_cases hf : c.Accepted cfg
  · have hent : (σ.insert cfg c).2.entries = Function.update σ.entries c.binaryHash
        (some (step cfg c.pair c.entropy c.blockLabel (σ.entries c.binaryHash))) := by
      simp [Store.insert, hf]
    have hch : (σ.insert cfg c).2.changes =
        tally cfg c.pair c.entropy c.blockLabel (σ.entries c.binaryHash) σ.changes := by
      simp [Store.insert, hf]
    have hnone : c.binaryHash ∈ T ↔ σ.entries c.binaryHash ≠ none := h.mem_keys _
    simp only [hf, if_true]
    constructor
    · intro K
      rw [hent, Finset.mem_insert, h.mem_keys]
      by_cases hK : K = c.binaryHash
      · subst hK; simp
      · simp [hK]
    · rw [hch, tally_dataInserted, h.dataInserted, Finset.card_insert_eq_ite]
      by_cases hH : c.binaryHash ∈ T <;> simp_all
    · set E := step cfg c.pair c.entropy c.blockLabel (σ.entries c.binaryHash)
      have hsum := sum_insert_update (fun K => sourceCount (σ.entries K)) T c.binaryHash
        E.pairs.card (fun hH => by simp [not_not.1 (mt hnone.2 hH), sourceCount])
      have hupd : (fun K => sourceCount (Function.update σ.entries c.binaryHash (some E) K)) =
          Function.update (fun K => sourceCount (σ.entries K)) c.binaryHash E.pairs.card := by
        funext K
        by_cases hK : K = c.binaryHash
        · subst hK; simp [sourceCount]
        · simp [hK]
      rw [hent, hch, show (∑ K ∈ Insert.insert c.binaryHash T,
        sourceCount (Function.update σ.entries c.binaryHash (some E) K)) = _ from
          congrArg (Finset.sum _) hupd]
      refine Nat.add_right_cancel ((tally_sourceInserted cfg c.pair c.entropy c.blockLabel
        (σ.entries c.binaryHash) σ.changes).trans ?_)
      rw [h.sourceInserted]
      exact hsum.symm
    · rw [hch, tally_data_sum, h.data_sum]
    · rw [hch, tally_source_sum, h.source_sum]
    · rw [hch, tally_invalid, h.invalid]
  · simp only [hf, if_false]
    have hent : (σ.insert cfg c).2.entries = σ.entries := by simp [Store.insert, hf]
    constructor <;> simp only [Store.insert, hf, if_false]
    · exact h.mem_keys
    · exact h.dataInserted
    · exact h.sourceInserted
    · exact h.data_sum
    · exact h.source_sum
    · rw [h.invalid]

/-- A run keeps the counter identities, counting its accepted and rejected calls. -/
theorem Counted.run (h : Counted σ T a r) (cfg : Config) (calls : List InsertCall) :
    ∃ T', Counted (σ.run cfg calls) T' (a + (calls.filter (·.Accepted cfg)).length)
      (r + (calls.filter fun c => ¬c.Accepted cfg).length) := by
  induction calls generalizing σ T a r with
  | nil => exact ⟨T, h⟩
  | cons c cs ih =>
    obtain ⟨T', h'⟩ := ih (h.insert cfg c)
    refine ⟨T', ?_⟩
    by_cases hf : c.Accepted cfg <;> simp only [hf, if_true, if_false] at h' <;>
      simpa [List.filter_cons, hf, Nat.add_assoc, Nat.add_comm 1] using h'

end Counted

/-! ## Metadata -/

/-- The last call of `calls` that `insert` accepts for `H`. -/
def lastAccepted (cfg : Config) (H : Bytes) : List InsertCall → Option InsertCall
  | [] => none
  | c :: cs =>
    (lastAccepted cfg H cs).or (if c.binaryHash = H ∧ c.Accepted cfg then some c else none)

section LastAccepted

variable {cfg : Config} {H : Bytes}

/-- The entry a call leaves for `H`: the step of the call when it is accepted for `H`. -/
theorem insert_entries (σ : Store) (c : InsertCall) :
    (σ.insert cfg c).2.entries H =
      if c.binaryHash = H ∧ c.Accepted cfg then
        some (step cfg c.pair c.entropy c.blockLabel (σ.entries H))
      else σ.entries H := by
  by_cases hH : c.binaryHash = H
  · subst hH; by_cases hf : c.Accepted cfg <;> simp [Store.insert, hf]
  · simp [hH, Store.insert_entries_of_ne cfg σ (Ne.symm hH)]

/-- Without an accepted call for `H`, a run leaves its entry as it was. -/
theorem run_entries_of_lastAccepted_none {calls : List InsertCall} {σ : Store}
    (h : lastAccepted cfg H calls = none) : (σ.run cfg calls).entries H = σ.entries H := by
  induction calls generalizing σ with
  | nil => rfl
  | cons c cs ih =>
    simp only [lastAccepted, Option.or_eq_none, ite_eq_right_iff, reduceCtorEq, imp_false] at h
    rw [Store.run_cons, ih h.1, insert_entries, if_neg h.2]

/-- After a run, `H` has the metadata of the last call accepted for it. -/
theorem run_entries_of_lastAccepted_some {calls : List InsertCall} {σ : Store} {c : InsertCall}
    (h : lastAccepted cfg H calls = some c) :
    ∃ ent, (σ.run cfg calls).entries H = some ent ∧ ent.entropy = c.entropy ∧
      ent.blockLabel = c.blockLabel := by
  induction calls generalizing σ with
  | nil => simp [lastAccepted] at h
  | cons c' cs ih =>
    rw [Store.run_cons]
    cases hl : lastAccepted cfg H cs with
    | some c'' =>
      simp only [lastAccepted, hl, Option.or_some, Option.some.injEq] at h
      exact ih (h ▸ hl)
    | none =>
      simp only [lastAccepted, hl, Option.none_or, ite_eq_iff, Option.some.injEq] at h
      obtain ⟨hacc, rfl⟩ | ⟨-, h⟩ := h
      · rw [run_entries_of_lastAccepted_none hl, insert_entries, if_pos hacc]
        exact ⟨_, rfl, step_entropy _, step_blockLabel _⟩
      · cases h

/-- Valid calls never name the empty hash, which so never gets an entry. -/
theorem lastAccepted_nil_key {calls : List InsertCall} (hv : ∀ c ∈ calls, c.Valid) :
    lastAccepted cfg [] calls = none := by
  induction calls with
  | nil => rfl
  | cons c cs ih =>
    have hc := (hv c (List.mem_cons_self _ _)).1
    simp [lastAccepted, ih fun c hc => hv c (List.mem_cons_of_mem _ hc), hc]

end LastAccepted

/-! ## The pairs of a hash -/

/-- The pairs of an entry; none for an absent hash. -/
def pairsOf : Option Entry → Finset (UInt64 × UInt64)
  | none => ∅
  | some ent => ent.pairs

/-- The spec's policy for the pairs of a hash: each offered pair in turn is added unless it is
present or the hash already holds `cap` pairs, `cap = 0` being no limit. -/
def keptPairs (cap : Nat) : Finset (UInt64 × UInt64) → List (UInt64 × UInt64) →
    Finset (UInt64 × UInt64)
  | S, [] => S
  | S, p :: ps => keptPairs cap (if p ∈ S ∨ (cap ≠ 0 ∧ cap ≤ S.card) then S else Insert.insert p S) ps

/-- The pairs the calls accepted for `H` offer, in order. -/
def offeredPairs (cfg : Config) (H : Bytes) (calls : List InsertCall) : List (UInt64 × UInt64) :=
  (calls.filter fun c => c.binaryHash = H ∧ c.Accepted cfg).map InsertCall.pair

section Pairs

variable {cfg : Config} {pair : UInt64 × UInt64} {entropy : UInt64} {blockLabel : StdString}

/-- With a limit of two or more, a call adds its pair unless present or at the limit. -/
theorem step_pairs_of_two_le (hcap : 2 ≤ cfg.maxIdOffsetPairs.toNat) (e : Option Entry) :
    (step cfg pair entropy blockLabel e).pairs =
      if pair ∈ pairsOf e ∨ (cfg.maxIdOffsetPairs.toNat ≠ 0 ∧
          cfg.maxIdOffsetPairs.toNat ≤ (pairsOf e).card) then pairsOf e
      else Insert.insert pair (pairsOf e) := by
  have hone : ¬(cfg.maxIdOffsetPairs ≠ 0 ∧ 1 ≥ cfg.maxIdOffsetPairs) := fun h => by
    have : cfg.maxIdOffsetPairs.toNat ≤ 1 := h.2
    omega
  cases e with
  | none =>
    have : ¬cfg.maxIdOffsetPairs.toNat ≤ 0 := by omega
    simp [step, pairsOf, this]
  | some ent =>
    by_cases hp : pair ∈ ent.pairs
    · simp [step, pairsOf, hp]
    by_cases h1 : ent.pairs.card = 1
    · have : ¬cfg.maxIdOffsetPairs.toNat ≤ 1 := by omega
      simp [step, pairsOf, hp, AtMax, h1, hone, this]
    · by_cases hm : cfg.maxIdOffsetPairs.toNat ≤ ent.pairs.card
      · simp [step, pairsOf, hp, AtMax, h1, hm, show cfg.maxIdOffsetPairs.toNat ≠ 0 by omega]
      · simp [step, pairsOf, hp, AtMax, h1, hm]

/-- With a limit of two or more, a run keeps for each hash the first distinct pairs offered
for it, up to the limit. -/
theorem run_pairs_of_two_le (hcap : 2 ≤ cfg.maxIdOffsetPairs.toNat) (H : Bytes) :
    ∀ (calls : List InsertCall) (σ : Store),
      pairsOf ((σ.run cfg calls).entries H) =
        keptPairs cfg.maxIdOffsetPairs.toNat (pairsOf (σ.entries H)) (offeredPairs cfg H calls)
  | [], σ => rfl
  | c :: cs, σ => by
    rw [Store.run_cons, run_pairs_of_two_le hcap H cs, insert_entries]
    by_cases hc : c.binaryHash = H ∧ c.Accepted cfg
    · simp [offeredPairs, List.filter_cons, hc, keptPairs, pairsOf, step_pairs_of_two_le hcap]
    · simp [offeredPairs, List.filter_cons, hc]

/-- With no limit, a hash still never holds more than two pairs: the Type 2 branch reads a
limit of 0 as reached. -/
theorem step_card_le_two_of_zero (hcap : cfg.maxIdOffsetPairs = 0) (e : Option Entry)
    (he : (pairsOf e).card ≤ 2) : (step cfg pair entropy blockLabel e).pairs.card ≤ 2 := by
  cases e with
  | none => simp [step]
  | some ent =>
    simp only [pairsOf] at he
    by_cases hp : pair ∈ ent.pairs
    · simpa [step, hp] using he
    by_cases h1 : ent.pairs.card = 1
    · have := Finset.card_insert_le pair ent.pairs
      simp only [step, hp, AtMax, h1, hcap, if_false, if_true, ne_eq, not_true_eq_false,
        false_and]
      omega
    · simpa [step, hp, AtMax, h1, hcap] using he

/-- With no limit, no run takes a hash past two pairs. -/
theorem run_card_le_two_of_zero (hcap : cfg.maxIdOffsetPairs = 0) (H : Bytes) :
    ∀ (calls : List InsertCall) (σ : Store), (pairsOf (σ.entries H)).card ≤ 2 →
      (pairsOf ((σ.run cfg calls).entries H)).card ≤ 2
  | [], _, h => h
  | c :: cs, σ, h => by
    refine run_card_le_two_of_zero hcap H cs _ ?_
    rw [insert_entries]
    split_ifs
    · exact step_card_le_two_of_zero hcap _ h
    · exact h

/-- No call takes a hash past two pairs or past its limit. -/
theorem step_card_le_max (e : Option Entry)
    (he : (pairsOf e).card ≤ max 2 cfg.maxIdOffsetPairs.toNat) :
    (step cfg pair entropy blockLabel e).pairs.card ≤ max 2 cfg.maxIdOffsetPairs.toNat := by
  cases e with
  | none => simp [step]
  | some ent =>
    simp only [pairsOf] at he
    by_cases hp : pair ∈ ent.pairs
    · simpa [step, hp] using he
    by_cases hm : AtMax cfg ent
    · simp only [step, hp, hm, if_false, if_true]
      split_ifs
      · simp
      · exact he
    · have hi := Finset.card_insert_le pair ent.pairs
      simp only [step, hp, hm, if_false]
      unfold AtMax at hm
      split_ifs at hm with h1
      · have : cfg.maxIdOffsetPairs.toNat = 0 ∨ 2 ≤ cfg.maxIdOffsetPairs.toNat := by
          simp only [not_and_or, ne_eq, not_not, ge_iff_le] at hm
          rcases hm with h0 | h0
          · exact .inl (by simp [h0])
          · have : ¬cfg.maxIdOffsetPairs.toNat ≤ 1 := h0
            omega
        omega
      · omega

/-- No run takes a hash past two pairs or past its limit. -/
theorem run_card_le_max (H : Bytes) :
    ∀ (calls : List InsertCall) (σ : Store),
      (pairsOf (σ.entries H)).card ≤ max 2 cfg.maxIdOffsetPairs.toNat →
      (pairsOf ((σ.run cfg calls).entries H)).card ≤ max 2 cfg.maxIdOffsetPairs.toNat
  | [], _, h => h
  | c :: cs, σ, h => by
    refine run_card_le_max H cs _ ?_
    rw [insert_entries]
    split_ifs
    · exact step_card_le_max _ h
    · exact h

end Pairs

/-- The call that `lastAccepted` names is one of the calls, for `H`, and accepted. -/
theorem lastAccepted_spec {cfg : Config} {H : Bytes} {calls : List InsertCall} {c : InsertCall}
    (h : lastAccepted cfg H calls = some c) :
    c ∈ calls ∧ c.binaryHash = H ∧ c.Accepted cfg := by
  induction calls with
  | nil => simp [lastAccepted] at h
  | cons c' cs ih =>
    simp only [lastAccepted, Option.or_eq_some, ite_eq_iff, Option.some.injEq] at h
    rcases h with h | ⟨-, ⟨hacc, rfl⟩ | ⟨-, h⟩⟩
    · obtain ⟨hm, hrest⟩ := ih h
      exact ⟨List.mem_cons_of_mem _ hm, hrest⟩
    · exact ⟨List.mem_cons_self _ _, hacc⟩
    · cases h

end HashData
end HashDb

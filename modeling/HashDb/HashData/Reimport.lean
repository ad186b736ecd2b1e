import HashDb.HashData.Interleave

/-!
# Importing the same calls again

Importing a file a second time makes the same `insert` calls again. On the hash data store
that changes no record: from any reachable store, a run of valid calls made a second time, on
the store the first run left, ends in that same store (`reimport_keeps_records`); only the
counters move.

Hash by hash (`entryRun_entryRun`), the metadata is the last accepted call's after either run
(`entryRun_sameData`). For the pairs, `insert`'s limit gives two regimes:

* a limit other than one: no call drops a pair. After the first run every pair offered for the
  hash is absorbed (`Entry.Absorbs`: present, or the entry is at its limit with a number of
  pairs other than one), and a call offering an absorbed pair leaves the pairs as they are, so
  the second run does (`entryRun_absorbs`, `entryRun_pairs_of_absorbs`);
* a limit of one: a hash keeps one pair, which a call replaces with its own whenever its
  metadata differs from the entry's (`Entry.step_of_limit_one`). The pair left is the one of
  the last call that changed the metadata; the second run, whatever its first call does, meets
  the same changes after it (`entryRun_of_changed`, `entryRun_entryRun_of_limit_one`). An
  entry of two pairs or more, which this limit never builds, is at its limit and absorbs every
  pair.
-/

namespace HashDb
namespace HashData

open Lmdb Entry

namespace Entry

section Absorb

variable {cfg : Config} {pair p : UInt64 × UInt64} {entropy : UInt64} {blockLabel : StdString}
  {ent ent' : Entry}

/-- Two entries with the same metadata and the same pairs are equal. -/
theorem eq_of_sameData (h : SameData ent.entropy ent.blockLabel ent') (hp : ent.pairs = ent'.pairs) :
    ent = ent' := by
  obtain ⟨e, l, P⟩ := ent
  obtain ⟨e', l', P'⟩ := ent'
  obtain ⟨rfl, rfl⟩ := h
  cases hp
  rfl

/-- A call offering `p` leaves the pairs of `ent` as they are: `p` is one of them, or the entry
is at its limit and is not a one-pair entry, which `insert` would rewrite. -/
def Absorbs (cfg : Config) (ent : Entry) (p : UInt64 × UInt64) : Prop :=
  p ∈ ent.pairs ∨ (AtMax cfg ent ∧ ent.pairs.card ≠ 1)

theorem absorbs_congr (h : ent.pairs = ent'.pairs) : Absorbs cfg ent p ↔ Absorbs cfg ent' p := by
  simp only [Absorbs, AtMax, h]

theorem step_pairs_of_absorbs (h : Absorbs cfg ent pair) :
    (step cfg pair entropy blockLabel (some ent)).pairs = ent.pairs := by
  by_cases hp : pair ∈ ent.pairs
  · simp [step, hp]
  · obtain ⟨hm, h1⟩ := h.resolve_left hp
    simp [step, hp, hm, h1]

/-- Under a limit other than one, a one-pair entry is never at its limit. -/
theorem card_ne_one_of_atMax (hcap : cfg.maxIdOffsetPairs ≠ 1) (hm : AtMax cfg ent) :
    ent.pairs.card ≠ 1 := by
  intro h1
  rw [AtMax, if_pos h1] at hm
  have h0 : cfg.maxIdOffsetPairs.toNat ≠ 0 := fun h => hm.1 (UInt32.toNat.inj h)
  have hle : cfg.maxIdOffsetPairs.toNat ≤ 1 := hm.2
  exact hcap (UInt32.toNat.inj (show cfg.maxIdOffsetPairs.toNat = 1 by omega))

/-- Under a limit other than one, a call never drops a pair. -/
theorem pairs_subset_step (hcap : cfg.maxIdOffsetPairs ≠ 1) (ent : Entry) :
    ent.pairs ⊆ (step cfg pair entropy blockLabel (some ent)).pairs := by
  by_cases hp : pair ∈ ent.pairs
  · simp [step, hp]
  by_cases hm : AtMax cfg ent
  · simp [step, hp, hm, card_ne_one_of_atMax hcap hm]
  · simp [step, hp, hm, Finset.subset_insert]

/-- Under a limit other than one, an entry absorbs after a call what it absorbed before. -/
theorem absorbs_step (hcap : cfg.maxIdOffsetPairs ≠ 1) (h : Absorbs cfg ent p) :
    Absorbs cfg (step cfg pair entropy blockLabel (some ent)) p := by
  rcases h with hp | hm
  · exact .inl (pairs_subset_step hcap ent hp)
  · exact (absorbs_congr (step_pairs_of_absorbs (.inr hm))).2 (.inr hm)

/-- Under a limit other than one, a call leaves an entry that absorbs its pair. -/
theorem absorbs_step_self (hcap : cfg.maxIdOffsetPairs ≠ 1) (e : Option Entry) :
    Absorbs cfg (step cfg pair entropy blockLabel e) pair := by
  cases e with
  | none => exact .inl (Finset.mem_singleton_self _)
  | some ent =>
    by_cases hq : Absorbs cfg ent pair
    · exact (absorbs_congr (step_pairs_of_absorbs hq)).2 hq
    · have hm : ¬AtMax cfg ent := fun hm => hq (.inr ⟨hm, card_ne_one_of_atMax hcap hm⟩)
      exact .inl (by simp [step, (not_or.1 hq).1, hm])

/-- Under a limit of one, an entry of two pairs or more absorbs every pair. -/
theorem absorbs_of_two_le (hcap : cfg.maxIdOffsetPairs = 1) (h2 : 2 ≤ ent.pairs.card) :
    Absorbs cfg ent p :=
  .inr ⟨by rw [AtMax, if_neg (by omega), hcap]; exact h2.trans' (by decide), by omega⟩

/-- Under a limit of one, a call on a one-pair entry keeps its pair when the metadata stays,
and puts its own pair in its place otherwise. -/
theorem step_of_limit_one (hcap : cfg.maxIdOffsetPairs = 1) (h1 : ent.pairs.card = 1) :
    step cfg pair entropy blockLabel (some ent) =
      ⟨entropy, blockLabel, if SameData entropy blockLabel ent then ent.pairs else {pair}⟩ := by
  have hm : AtMax cfg ent := by simp [AtMax, h1, hcap]
  by_cases hp : pair ∈ ent.pairs
  · obtain ⟨q, hq⟩ := Finset.card_eq_one.1 h1
    rw [hq, Finset.mem_singleton] at hp
    subst hp
    simp [step, hq]
  · simp [step, hp, hm, h1]

/-- Under a limit of one, a call leaves one pair on an absent or one-pair entry. -/
theorem card_step_of_limit_one (hcap : cfg.maxIdOffsetPairs = 1) {e : Option Entry}
    (he : ∀ ent ∈ e, ent.pairs.card = 1) : (step cfg pair entropy blockLabel e).pairs.card = 1 := by
  cases e with
  | none => exact Finset.card_singleton _
  | some ent =>
    rw [step_of_limit_one hcap (he ent rfl)]
    split_ifs
    · exact he ent rfl
    · exact Finset.card_singleton _

end Absorb

end Entry

/-! ## The entry of one hash over a run -/

/-- The entry of `H` after the calls, from `e`: `Entry.step` for each call accepted for `H`.
`Store.run` does this at every hash at once (`run_entries_eq_entryRun`). -/
def entryRun (cfg : Config) (H : Bytes) : Option Entry → List InsertCall → Option Entry
  | e, [] => e
  | e, c :: cs => entryRun cfg H
      (if c.binaryHash = H ∧ c.Accepted cfg then some (step cfg c.pair c.entropy c.blockLabel e)
        else e) cs

theorem Store.run_entries_eq_entryRun (cfg : Config) (H : Bytes) :
    ∀ (σ : Store) (calls : List InsertCall),
      (σ.run cfg calls).entries H = entryRun cfg H (σ.entries H) calls
  | _, [] => rfl
  | σ, c :: cs => by
    rw [Store.run_cons, Store.run_entries_eq_entryRun cfg H _ cs, insert_entries]
    rfl

section EntryRun

variable {cfg : Config} {H : Bytes}

/-- A run that accepts no call for `H` leaves its entry as it was. -/
theorem entryRun_of_not_accepted :
    ∀ {calls : List InsertCall} (e : Option Entry),
      (∀ c ∈ calls, ¬(c.binaryHash = H ∧ c.Accepted cfg)) → entryRun cfg H e calls = e
  | [], _, _ => rfl
  | c :: cs, e, h => by
    rw [entryRun, if_neg (h c (List.mem_cons_self _ _))]
    exact entryRun_of_not_accepted e fun d hd => h d (List.mem_cons_of_mem _ hd)

/-- Two runs of the same calls, one accepted for `H`, end on an entry with the same metadata:
the last accepted call's. -/
theorem entryRun_sameData :
    ∀ {calls : List InsertCall} (e e' : Option Entry),
      (∃ c ∈ calls, c.binaryHash = H ∧ c.Accepted cfg) →
      ∃ y y', entryRun cfg H e calls = some y ∧ entryRun cfg H e' calls = some y' ∧
        SameData y.entropy y.blockLabel y'
  | [], _, _, ⟨_, hc, _⟩ => absurd hc (List.not_mem_nil _)
  | c :: cs, e, e', ⟨d, hd, hrel⟩ => by
    rw [entryRun, entryRun]
    by_cases hcs : ∃ d ∈ cs, d.binaryHash = H ∧ d.Accepted cfg
    · exact entryRun_sameData _ _ hcs
    · -- `c` is the last call accepted for `H`
      have hc : c.binaryHash = H ∧ c.Accepted cfg := by
        rcases List.mem_cons.1 hd with rfl | hd
        · exact hrel
        · exact absurd ⟨d, hd, hrel⟩ hcs
      rw [if_pos hc, if_pos hc, entryRun_of_not_accepted _ (by simpa using hcs),
        entryRun_of_not_accepted _ (by simpa using hcs)]
      exact ⟨_, _, rfl, rfl, by simp [SameData]⟩

/-! ### A limit other than one -/

/-- Under a limit other than one, a run from an entry that absorbs `p` ends on one that does. -/
theorem entryRun_absorbs_of_absorbs (hcap : cfg.maxIdOffsetPairs ≠ 1) {p : UInt64 × UInt64} :
    ∀ (calls : List InsertCall) (ent : Entry), Absorbs cfg ent p →
      ∃ ent', entryRun cfg H (some ent) calls = some ent' ∧ Absorbs cfg ent' p
  | [], ent, h => ⟨ent, rfl, h⟩
  | c :: cs, ent, h => by
    rw [entryRun]
    split_ifs
    · exact entryRun_absorbs_of_absorbs hcap cs _ (absorbs_step hcap h)
    · exact entryRun_absorbs_of_absorbs hcap cs ent h

/-- Under a limit other than one, after a run the entry of `H` absorbs every pair the calls
accepted for `H` offered. -/
theorem entryRun_absorbs (hcap : cfg.maxIdOffsetPairs ≠ 1) :
    ∀ (calls : List InsertCall) (e : Option Entry), ∀ c ∈ calls, c.binaryHash = H ∧ c.Accepted cfg →
      ∃ ent, entryRun cfg H e calls = some ent ∧ Absorbs cfg ent c.pair
  | [], _, _, hc, _ => absurd hc (List.not_mem_nil _)
  | c :: cs, e, d, hd, hrel => by
    rcases List.mem_cons.1 hd with rfl | hd
    · rw [entryRun, if_pos hrel]
      exact entryRun_absorbs_of_absorbs hcap cs _ (absorbs_step_self hcap e)
    · exact entryRun_absorbs hcap cs _ d hd hrel

/-- A run whose calls accepted for `H` all offer pairs the entry absorbs leaves its pairs. -/
theorem entryRun_pairs_of_absorbs {ent : Entry} :
    ∀ {calls : List InsertCall}, (∀ c ∈ calls, c.binaryHash = H ∧ c.Accepted cfg →
      Absorbs cfg ent c.pair) → ∀ ent' : Entry, ent'.pairs = ent.pairs →
      ∃ ent'', entryRun cfg H (some ent') calls = some ent'' ∧ ent''.pairs = ent.pairs
  | [], _, ent', hp => ⟨ent', rfl, hp⟩
  | c :: cs, habs, ent', hp => by
    have habs' := fun d hd => habs d (List.mem_cons_of_mem c hd)
    rw [entryRun]
    by_cases hc : c.binaryHash = H ∧ c.Accepted cfg
    · rw [if_pos hc]
      refine entryRun_pairs_of_absorbs habs' _ ?_
      rw [step_pairs_of_absorbs ((absorbs_congr hp).2 (habs c (List.mem_cons_self _ _) hc)), hp]
    · rw [if_neg hc]
      exact entryRun_pairs_of_absorbs habs' ent' hp

/-! ### A limit of one -/

/-- Under a limit of one, a one-pair entry holds one pair after any run. -/
theorem entryRun_one_pair (hcap : cfg.maxIdOffsetPairs = 1) :
    ∀ (calls : List InsertCall) (ent : Entry), ent.pairs.card = 1 →
      ∃ y, entryRun cfg H (some ent) calls = some y ∧ y.pairs.card = 1
  | [], ent, h1 => ⟨ent, rfl, h1⟩
  | c :: cs, ent, h1 => by
    rw [entryRun]
    split_ifs
    · exact entryRun_one_pair hcap cs _ (card_step_of_limit_one hcap fun _ he => Option.some.inj he ▸ h1)
    · exact entryRun_one_pair hcap cs ent h1

/-- Under a limit of one, two one-pair entries with the same metadata end a run alike when the
run ends on other metadata: the last call that changed it put its own pair in place of
whichever they held. -/
theorem entryRun_of_changed (hcap : cfg.maxIdOffsetPairs = 1) :
    ∀ (calls : List InsertCall) (a : Entry) (Q : Finset (UInt64 × UInt64)), a.pairs.card = 1 →
      Q.card = 1 → (∀ y, entryRun cfg H (some a) calls = some y → ¬SameData y.entropy y.blockLabel a) →
      entryRun cfg H (some a) calls = entryRun cfg H (some ⟨a.entropy, a.blockLabel, Q⟩) calls
  | [], a, _, _, _, h => absurd ⟨rfl, rfl⟩ (h a rfl)
  | c :: cs, a, Q, ha, hQ, h => by
    rw [entryRun, entryRun] at *
    by_cases hc : c.binaryHash = H ∧ c.Accepted cfg
    · rw [if_pos hc, step_of_limit_one hcap ha] at h ⊢
      rw [if_pos hc, step_of_limit_one hcap (show (⟨a.entropy, a.blockLabel, Q⟩ : Entry).pairs.card = 1
        from hQ)]
      by_cases hs : SameData c.entropy c.blockLabel a
      · -- both keep their pair, under the call's metadata, which is theirs
        rw [if_pos hs] at h ⊢
        rw [if_pos (show SameData c.entropy c.blockLabel ⟨a.entropy, a.blockLabel, Q⟩ from hs)]
        exact entryRun_of_changed hcap cs _ Q ha hQ fun y hy hy' =>
          h y hy ⟨hy'.1.trans hs.1, hy'.2.trans hs.2⟩
      · rw [if_neg hs, if_neg (show ¬SameData c.entropy c.blockLabel ⟨a.entropy, a.blockLabel, Q⟩
          from hs)]
    · rw [if_neg hc] at h ⊢
      rw [if_neg hc]
      exact entryRun_of_changed hcap cs a Q ha hQ h

/-- Under a limit of one, from an absent or one-pair entry, a run made a second time ends where
the first did. -/
theorem entryRun_entryRun_of_limit_one (hcap : cfg.maxIdOffsetPairs = 1) :
    ∀ (calls : List InsertCall) (e : Option Entry), (∀ ent ∈ e, ent.pairs.card = 1) →
      entryRun cfg H (entryRun cfg H e calls) calls = entryRun cfg H e calls
  | [], _, _ => rfl
  | c :: cs, e, he => by
    by_cases hc : c.binaryHash = H ∧ c.Accepted cfg
    · -- after the first call the entry holds one pair, with the call's metadata
      have hs1 : (step cfg c.pair c.entropy c.blockLabel e).pairs.card = 1 :=
        card_step_of_limit_one hcap he
      have ih := entryRun_entryRun_of_limit_one hcap cs _ fun _ h => Option.some.inj h ▸ hs1
      obtain ⟨y, hy, hy1⟩ := entryRun_one_pair hcap (H := H) cs _ hs1
      have hrun : entryRun cfg H e (c :: cs) = some y := by rw [entryRun, if_pos hc, hy]
      rw [hy] at ih
      rw [hrun, entryRun, if_pos hc, step_of_limit_one hcap hy1]
      by_cases hsame : SameData c.entropy c.blockLabel y
      · rw [if_pos hsame, show (⟨c.entropy, c.blockLabel, y.pairs⟩ : Entry) = y from
          eq_of_sameData hsame rfl, ih]
      · -- the call changes the metadata again, and the first run's changes follow
        rw [if_neg hsame, ← hy]
        have hchg := entryRun_of_changed hcap cs _ {c.pair} hs1 (Finset.card_singleton _)
          fun y' hy' ⟨h1, h2⟩ => by
            rw [hy] at hy'
            cases hy'
            exact hsame ⟨(h1.trans (step_entropy e)).symm, (h2.trans (step_blockLabel e)).symm⟩
        rw [hchg, step_entropy, step_blockLabel]
    · rw [entryRun, if_neg hc, entryRun, if_neg hc]
      exact entryRun_entryRun_of_limit_one hcap cs e he

/-! ### Both regimes -/

/-- From an absent entry or one with a pair or more, a run made a second time ends where the
first did. -/
theorem entryRun_entryRun (calls : List InsertCall) {e : Option Entry}
    (he : ∀ ent ∈ e, 0 < ent.pairs.card) :
    entryRun cfg H (entryRun cfg H e calls) calls = entryRun cfg H e calls := by
  by_cases hrel : ∃ c ∈ calls, c.binaryHash = H ∧ c.Accepted cfg
  swap
  · rw [entryRun_of_not_accepted _ (by simpa using hrel)]
  obtain ⟨y, y', hy, hy', hsame⟩ := entryRun_sameData e (entryRun cfg H e calls) hrel
  rw [hy] at hy' ⊢
  rw [hy']
  refine congrArg some (eq_of_sameData hsame ?_).symm
  -- the pairs: the second run keeps those the first left
  by_cases hcap : cfg.maxIdOffsetPairs = 1
  · by_cases h1 : ∀ ent ∈ e, ent.pairs.card = 1
    · have := entryRun_entryRun_of_limit_one hcap (H := H) calls e h1
      rw [hy, hy'] at this
      rw [Option.some.inj this]
    · -- an entry with two pairs or more is at its limit, and stays so
      push_neg at h1
      obtain ⟨ent, rfl, h1⟩ := h1
      have h2 : 2 ≤ ent.pairs.card := by have := he ent rfl; omega
      have habs : ∀ c ∈ calls, c.binaryHash = H ∧ c.Accepted cfg → Absorbs cfg ent c.pair :=
        fun _ _ _ => absorbs_of_two_le hcap h2
      obtain ⟨z, hz, hzp⟩ := entryRun_pairs_of_absorbs habs ent rfl
      rw [hy] at hz
      cases hz
      obtain ⟨z', hz', hzp'⟩ := entryRun_pairs_of_absorbs habs y hzp
      rw [hy'] at hz'
      cases hz'
      rw [hzp', hzp]
  · have habs : ∀ c ∈ calls, c.binaryHash = H ∧ c.Accepted cfg → Absorbs cfg y c.pair :=
      fun c hc hrel => by
        obtain ⟨z, hz, h⟩ := entryRun_absorbs hcap calls e c hc hrel
        rw [hy] at hz
        cases hz
        exact h
    obtain ⟨z, hz, hzp⟩ := entryRun_pairs_of_absorbs habs y rfl
    rw [hy'] at hz
    cases hz
    exact hzp.symm

end EntryRun

/-- Running calls a second time on the abstract store the first run left changes no entry, on
a store whose entries hold a pair or more each. -/
theorem Store.run_run_entries {cfg : Config} {σ : Store}
    (hpos : ∀ H, ∀ ent ∈ σ.entries H, 0 < ent.pairs.card) (calls : List InsertCall) :
    ((σ.run cfg calls).run cfg calls).entries = (σ.run cfg calls).entries := by
  funext H
  rw [Store.run_entries_eq_entryRun, Store.run_entries_eq_entryRun]
  exact entryRun_entryRun calls (hpos H)

/-! ## The C++ store -/

section Runs

variable {cfg : Config} {db : Db}

/-- Making a run of valid calls a second time, on the store the first run left, changes no
record: from any reachable store and counters both runs complete with none of `insert`'s
faults, and the second ends in the store the first did. -/
theorem reimport_keeps_records (hdb : Reachable cfg db) (changes : LmdbChanges)
    {calls : List InsertCall} (hv : ∀ c ∈ calls, c.Valid) :
    ∃ db₁ ch₁ ch₂, runInserts cfg calls db changes = .ok (db₁, ch₁) ∧
      runInserts cfg calls db₁ ch₁ = .ok (db₁, ch₂) := by
  obtain ⟨σ, hσ⟩ := hdb.refines
  obtain ⟨db₁, h₁, hr₁⟩ := runInserts_refines (refines_with changes hσ) hv
  obtain ⟨db₂, h₂, hr₂⟩ := runInserts_refines hr₁ hv
  have hpos : ∀ H, ∀ ent ∈ σ.entries H, 0 < ent.pairs.card :=
    fun H ent he => ((Option.mem_def.1 he) ▸ hσ H).card_pos
  rw [Store.run_run_entries (σ := ⟨σ.entries, changes⟩) hpos] at hr₂
  exact ⟨db₁, _, _, h₁, by rw [h₂, hr₂.unique hr₁]⟩

/-- Two calls on one hash with different metadata, under a limit of one, made again from the
empty store. -/
theorem reimport_keeps_records_limit_one :
    let cfg : Config := ⟨512, 1, by decide⟩
    let calls : List InsertCall := [⟨[1], 1, 0, 0, ⟨[], by decide⟩⟩, ⟨[1], 2, 512, 7, ⟨[], by decide⟩⟩]
    Reachable cfg Db.empty ∧ (∀ c ∈ calls, c.Valid) ∧
      ∃ db₁ ch₁ ch₂, runInserts cfg calls Db.empty .zero = .ok (db₁, ch₁) ∧
        runInserts cfg calls db₁ ch₁ = .ok (db₁, ch₂) := by
  intro cfg calls
  have hdb : Reachable cfg Db.empty := ⟨[], by simp, _, rfl⟩
  have hv : ∀ c ∈ calls, c.Valid := by decide
  exact ⟨hdb, hv, reimport_keeps_records hdb .zero hv⟩

end Runs

end HashData
end HashDb

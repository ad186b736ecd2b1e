import HashDb.MapMultimap.Interleave
import Mathlib.Algebra.BigOperators.Group.Finset

/-!
# What the counters of `map_multimap_manager_t` count

The caller learns what its calls did from `hashdb_changes_t`: `emplace` raises
`hashes_inserted`, `remove` raises `hashes_removed` when it finds the pay, and `remove_key`
raises it by the key's count (`Call.changed`, proved against the code in
MapMultimap/Interleave). Read against the sources the keys stand for (`KeyRecord.sources`),
each call that fits and that the code does not get wrong moves the number of sources of its
key by what it counts (`length_onSources_add_removed`).

So on such runs the counters account for the store: the sources all keys hold, plus
`hashes_removed`, is `hashes_inserted` (`safe_run_counters_account`). The three calls the code
gets wrong are where this breaks: after a `remove` at a count above two the map still counts
the removed pay, and a later `remove_key` counts it again.
-/

namespace HashDb
namespace MapMultimap

variable {K : Type} [DecidableEq K]

/-- The number of sources the keys of `T` stand for. -/
def Manager.held (E : LookupEncoding) (s : Manager K) (T : Finset K) : Nat :=
  ∑ key ∈ T, (s.sources E key).length

section Counters

variable {E : LookupEncoding}

omit [DecidableEq K] in
/-- On a sound record, a call that fits and is not one the code gets wrong adds to the key's
sources what it counts as inserted, and takes away what it counts as removed. -/
theorem length_onSources_add_removed {c : Call K} {r : KeyRecord} (hs : Sound E r)
    (hf : c.Fits E r) (hc : ¬c.Breaks r) :
    (c.onSources (r.sources E)).length + (c.changed E r).hashesRemoved =
      (r.sources E).length + (c.changed E r).hashesInserted := by
  cases c with
  | emplace key p =>
    -- the emplace does not throw, so it counts one insert
    have hnone : (emplaceRecord E p r).2 = none := ((onRecord_sound hs hf).1 hc).2.1
    simp [Call.onSources, Call.changed, hnone]
  | remove key p =>
    -- the pay is found exactly when it is one of the key's sources
    obtain ⟨_ | q, pays⟩ := r
    · simp [Call.onSources, Call.changed, KeyRecord.sources]
    · by_cases h1 : E.getCount q = 1
      · by_cases hq : q = p
        · subst hq
          simp [Call.onSources, Call.changed, KeyRecord.sources, h1]
        · simp [Call.onSources, Call.changed, KeyRecord.sources, h1, hq]
      · by_cases hp : p ∈ pays
        · have hpos := List.length_pos_of_mem hp
          simp [Call.onSources, Call.changed, KeyRecord.sources, h1, hp, List.length_erase_of_mem]
          omega
        · simp [Call.onSources, Call.changed, KeyRecord.sources, h1, hp, List.erase_of_not_mem]
  | removeKey key =>
    -- a key with a count above one always breaks, so the count removed is the one source
    obtain ⟨hshape, -⟩ := hs
    cases hshape with
    | absent => simp [Call.onSources, Call.changed, KeyRecord.sources]
    | single hq => simp [Call.onSources, Call.changed, KeyRecord.sources, hq]
    | forward h2 hlen => exact absurd (show 2 ≤ _ by rw [hlen]; exact h2) hc

end Counters

section Run

variable {cfg : Config K} {s : Manager K} {T : Finset K}

/-- One such call moves the sources of a key set holding its key by what it counts. -/
theorem held_step (hs : ∀ key, Sound cfg.encoding (s.record key)) (hb : BloomCovers cfg s)
    {c : Call K} (hf : c.Fits cfg.encoding (s.record c.key)) (hc : ¬c.Breaks (s.record c.key))
    (hT : c.key ∈ T) :
    (step cfg s c).held cfg.encoding T + (step cfg s c).changes.hashesRemoved +
        s.changes.hashesInserted =
      s.held cfg.encoding T + s.changes.hashesRemoved + (step cfg s c).changes.hashesInserted := by
  obtain ⟨-, -, hsrc⟩ := step_sound hs hb hf hc
  have hkey := length_onSources_add_removed (hs c.key) hf hc
  have hrest : ∑ key ∈ T.erase c.key, ((step cfg s c).sources cfg.encoding key).length =
      ∑ key ∈ T.erase c.key, (s.sources cfg.encoding key).length :=
    Finset.sum_congr rfl fun key hk => by
      rw [hsrc, Function.update_noteq (Finset.ne_of_mem_erase hk)]
  rw [Manager.held, Manager.held, ← Finset.add_sum_erase T _ hT, ← Finset.add_sum_erase T _ hT,
    hrest, hsrc, Function.update_same, changes_step hb c]
  simp only [HashdbChanges.add, Manager.sources] at hkey ⊢
  omega

/-- A run of calls that each fit and are not ones the code gets wrong, on keys of `T`, moves
the sources `T` holds by what the counters count. -/
theorem held_run (hs : ∀ key, Sound cfg.encoding (s.record key)) (hb : BloomCovers cfg s)
    {calls : List (Call K)} (h : SafeRun cfg s calls) (hT : ∀ c ∈ calls, c.key ∈ T) :
    (run cfg s calls).held cfg.encoding T + (run cfg s calls).changes.hashesRemoved +
        s.changes.hashesInserted =
      s.held cfg.encoding T + s.changes.hashesRemoved + (run cfg s calls).changes.hashesInserted := by
  induction calls generalizing s with
  | nil => rfl
  | cons c cs ih =>
    obtain ⟨hf, hc, hrest⟩ := h
    have h1 := held_step hs hb hf hc (hT c (List.mem_cons_self _ _))
    have h2 := ih (step_sound hs hb hf hc).2.1 (bloomCovers_step hb c) hrest
      fun d hd => hT d (List.mem_cons_of_mem _ hd)
    rw [run_cons]
    omega

/-- From the empty store, on a run of calls that each fit and are not ones the code gets wrong,
the counters account for the store: the sources the keys stand for, plus `hashes_removed`, are
`hashes_inserted`. -/
theorem safe_run_counters_account (cfg : Config K) (calls : List (Call K))
    (h : SafeRun cfg Manager.empty calls) :
    (run cfg Manager.empty calls).held cfg.encoding (calls.map Call.key).toFinset +
        (run cfg Manager.empty calls).changes.hashesRemoved =
      (run cfg Manager.empty calls).changes.hashesInserted := by
  have hrun := held_run (fun key => sound_record_empty cfg.encoding key) (bloomCovers_empty cfg) h
    (T := (calls.map Call.key).toFinset) fun c hc => List.mem_toFinset.2 (List.mem_map_of_mem _ hc)
  have hzero : (Manager.empty : Manager K).held cfg.encoding (calls.map Call.key).toFinset = 0 :=
    Finset.sum_eq_zero fun _ _ => rfl
  rw [hzero] at hrun
  simpa [Manager.empty] using hrun

/-- Two keys, three pays, one `remove` at a count of two. -/
theorem safe_run_counters_account_four :
    let calls : List (Call Nat) := [.emplace 0 0, .emplace 0 1, .emplace 1 0, .remove 0 0]
    SafeRun plainConfig Manager.empty calls ∧
      (run plainConfig Manager.empty calls).held plainConfig.encoding (calls.map Call.key).toFinset +
          (run plainConfig Manager.empty calls).changes.hashesRemoved =
        (run plainConfig Manager.empty calls).changes.hashesInserted := by
  intro calls
  have h : SafeRun plainConfig Manager.empty calls := by decide
  exact ⟨h, safe_run_counters_account plainConfig calls h⟩

end Run

end MapMultimap
end HashDb

import HashDb.Basic
import HashDb.MapMultimap.Properties

/-!
# The manager is one machine per key

Every call of `map_multimap_manager_t` reads and writes its own key's record only, and sets
bloom filter bits that only ever accumulate (HashDb.MapMultimap.KeyRecord). So a run of the
store is, key by key, a run of `recordRun`:

* `key_run_of_own_calls`: after any run from a store whose bloom filter has every key of its
  map, each key holds the record, and its calls threw the messages, that `recordRun` computes
  from that key's calls alone;
* `changes_step`: a call raises the `hashdb_changes_t` counters by amounts its key's record
  fixes (`Call.changed`);
* `interleaved_calls_agree`: two runs with the same calls on each key, in the same order, leave
  the same store, counters included, however the keys' calls interleave.
-/

namespace HashDb
namespace MapMultimap

variable {K : Type} [DecidableEq K]

omit [DecidableEq K] in
theorem MultimapManager.ext_pays {mm mm' : MultimapManager K} (h : mm.pays = mm'.pays) :
    mm = mm' := by
  cases mm; cases mm'; cases h; rfl

omit [DecidableEq K] in
theorem bloomAfter_comm (cfg : Config K) (bloom : Finset Nat) (c d : Call K) :
    d.bloomAfter cfg (c.bloomAfter cfg bloom) = c.bloomAfter cfg (d.bloomAfter cfg bloom) := by
  cases c <;> cases d <;> simp only [Call.bloomAfter, addHashValue, Finset.union_right_comm]

/-! ## Counters as increments -/

/-- Counters added field by field. -/
def HashdbChanges.add (c d : HashdbChanges) : HashdbChanges :=
  ⟨c.hashesInserted + d.hashesInserted, c.hashesRemoved + d.hashesRemoved,
    c.hashesNotRemovedNoElement + d.hashesNotRemovedNoElement,
    c.hashesNotRemovedNoKey + d.hashesNotRemovedNoKey⟩

theorem HashdbChanges.add_right_comm (c d e : HashdbChanges) :
    (c.add d).add e = (c.add e).add d := by
  simp only [add, Nat.add_right_comm]

/-- The counters a call raises, read off the code from its key's record: `emplace` counts an
insert when it does not throw; `remove` a removal when it finds the pay (the map pay for a count
of 1, a multimap pay otherwise), else a pay not found; `remove_key` the count it removes, unless
it throws on a count key with no multimap pay, else a key not found. -/
def Call.changed (E : LookupEncoding) : Call K → KeyRecord → HashdbChanges
  | .emplace _ pay, r => ⟨if (emplaceRecord E pay r).2 = none then 1 else 0, 0, 0, 0⟩
  | .remove _ _, ⟨none, _⟩ => ⟨0, 0, 1, 0⟩
  | .remove _ pay, ⟨some p, pays⟩ =>
    if (if E.getCount p = 1 then p = pay else pay ∈ pays) then ⟨0, 1, 0, 0⟩ else ⟨0, 0, 1, 0⟩
  | .removeKey _, ⟨none, _⟩ => ⟨0, 0, 0, 1⟩
  | .removeKey _, ⟨some p, pays⟩ =>
    if E.getCount p ≠ 1 ∧ pays = [] then ⟨0, 0, 0, 0⟩ else ⟨0, E.getCount p, 0, 0⟩

section Counters

variable {cfg : Config K} {s : Manager K} {key : K}

theorem emplace_changes (hb : BloomCovers cfg s) (sle : UInt64) :
    (stateAfter ((emplace cfg key sle).run s)).changes =
      s.changes.add ((Call.emplace key sle).changed cfg.encoding (s.record key)) := by
  cases hk : s.map key with
  | none =>
    by_cases hp : isPositive cfg s.bloom key <;>
      simp only [hk, hp, emplace, Bool.not_eq_eq_eq_not, Bool.not_true, Bool.not_false,
        Bool.true_eq_false, Bool.false_eq_true, ↓reduceIte, mapEmplace, modifyChanges,
        MapManager.emplace, Manager.liftMap, run_bind, run_get, run_checked, run_modify,
        Option.map_some', stateAfter_ok, HashdbChanges.add, Call.changed, emplaceRecord,
        Manager.record, add_zero]
  | some pay =>
    -- the key is in the map, so the bloom filter has it and the map pay decides
    have hp := hb key (by simp only [hk, ne_eq, reduceCtorEq, not_false_eq_true])
    by_cases h1 : cfg.encoding.getCount pay = 1 <;> by_cases hq : pay ∈ s.multimap.pays key <;>
      by_cases hm : sle ∈ s.multimap.pays key <;> by_cases hs : sle = pay <;>
      simp only [hk, hp, h1, hq, hm, hs, emplace, Bool.not_true, Bool.false_eq_true, ↓reduceIte,
        ↓reduceDIte, multimapEmplace, mapChange, modifyChanges, MapManager.change,
        MultimapManager.emplace, Manager.liftMap, Manager.liftMultimap, run_bind, run_get,
        run_checked, run_modify, Option.map_some', Option.map_none', stateAfter_ok,
        stateAfter_error, reduceCtorEq, Function.update_same, List.mem_append, List.mem_singleton,
        or_self, or_true, or_false, HashdbChanges.add, Call.changed, emplaceRecord, Manager.record,
        add_zero]

theorem remove_changes (sle : UInt64) :
    (stateAfter ((remove cfg key sle).run s)).changes =
      s.changes.add ((Call.remove key sle).changed cfg.encoding (s.record key)) := by
  simp only [remove, run_bind, run_get, mapErase, multimapErase, mapChange, modifyChanges,
    run_checked, run_modify, run_multimapManagerErase, Manager.record]
  cases hk : s.map key with
  | none => simp [hk, Call.changed, HashdbChanges.add]
  | some pay =>
    by_cases h1 : cfg.encoding.getCount pay = 1
    · by_cases hq : pay = sle
      · subst hq
        simp [hk, h1, Call.changed, HashdbChanges.add, Manager.liftMap, MapManager.erase]
      · simp [hk, h1, hq, Call.changed, HashdbChanges.add]
    by_cases hm : sle ∈ s.multimap.pays key
    · by_cases h2 : cfg.encoding.getCount pay = 2
      · -- the removal is counted before `equal_range` is read
        cases he : (s.multimap.pays key).erase sle with
        | nil => simp [hk, h1, h2, hm, he, Call.changed, HashdbChanges.add, MultimapManager.erase]
        | cons first rest =>
          by_cases hr : rest = [] <;>
            simp [hk, h1, h2, hm, he, hr, Call.changed, HashdbChanges.add, MultimapManager.erase,
              Manager.liftMap, Manager.liftMultimap, MapManager.change, MultimapManager.hasRange]
      · simp [hk, h1, h2, hm, Call.changed, HashdbChanges.add, MultimapManager.erase]
    · by_cases h2 : cfg.encoding.getCount pay = 2 <;>
        simp [hk, h1, h2, hm, Call.changed, HashdbChanges.add, MultimapManager.erase]

theorem removeKey_changes :
    (stateAfter ((removeKey cfg key).run s)).changes =
      s.changes.add ((Call.removeKey key).changed cfg.encoding (s.record key)) := by
  simp only [removeKey, run_bind, run_get, mapErase, multimapEraseRange, modifyChanges,
    run_checked, run_modify, Manager.record]
  cases hk : s.map key with
  | none => simp [hk, Call.changed, HashdbChanges.add]
  | some pay =>
    by_cases h1 : cfg.encoding.getCount pay = 1
    · simp [hk, h1, Call.changed, HashdbChanges.add, Manager.liftMap, MapManager.erase]
    · by_cases he : s.multimap.pays key = [] <;>
        simp [hk, h1, he, Call.changed, HashdbChanges.add, Manager.liftMultimap,
          MultimapManager.eraseRange]

/-- Every call raises the counters as `Call.changed` says, from its key's record. -/
theorem changes_step (hb : BloomCovers cfg s) (c : Call K) :
    (step cfg s c).changes = s.changes.add (c.changed cfg.encoding (s.record c.key)) := by
  cases c with
  | emplace key pay => exact emplace_changes hb pay
  | remove key pay => exact remove_changes pay
  | removeKey key => exact removeKey_changes

end Counters

section Run

variable {cfg : Config K} {s : Manager K}

/-- A call on another key leaves the record of `key` as it was. -/
theorem record_step_of_ne (hb : BloomCovers cfg s) {c : Call K} {key : K} (h : c.key ≠ key) :
    (step cfg s c).record key = s.record key := by
  rw [record_step hb c, Function.update_noteq (Ne.symm h)]

theorem record_step_self (hb : BloomCovers cfg s) (c : Call K) :
    (step cfg s c).record c.key = (c.onRecord cfg.encoding (s.record c.key)).1 := by
  rw [record_step hb c, Function.update_same]

/-- The record of `key` after a run, and the messages of the run's calls on `key`, are those of
the key's calls alone, run on its record. -/
theorem key_run_of_own_calls (hb : BloomCovers cfg s) (key : K) (calls : List (Call K)) :
    ((run cfg s calls).record key,
      ((calls.zip (thrownRun cfg s calls)).filter (·.1.key = key)).map (·.2)) =
      recordRun cfg.encoding (s.record key) (calls.filter (·.key = key)) := by
  induction calls generalizing s with
  | nil => rfl
  | cons c cs ih =>
    have ih' := ih (bloomCovers_step hb c)
    rw [run_cons, thrownRun, List.zip_cons_cons, List.filter_cons, List.filter_cons]
    by_cases hc : c.key = key
    · subst hc
      rw [if_pos (decide_eq_true rfl), if_pos (decide_eq_true rfl), List.map_cons, recordRun,
        ← record_step_self hb c, ← ih', thrown_step hb c]
    · have hc' : ¬decide (c.key = key) = true := by simpa using hc
      rw [if_neg hc', if_neg hc', ← record_step_of_ne hb hc, ih']

/-- Key 1's calls, with a call on key 2 between them, from the empty store. -/
theorem key_run_of_own_calls_two :
    let calls : List (Call Nat) := [.emplace 1 5, .emplace 2 6, .emplace 1 7]
    BloomCovers plainConfig (Manager.empty : Manager Nat) ∧
      ((run plainConfig Manager.empty calls).record 1,
        ((calls.zip (thrownRun plainConfig Manager.empty calls)).filter (·.1.key = 1)).map (·.2)) =
        recordRun plainConfig.encoding ((Manager.empty : Manager Nat).record 1)
          (calls.filter (·.key = 1)) :=
  ⟨bloomCovers_empty plainConfig, key_run_of_own_calls (bloomCovers_empty plainConfig) 1 _⟩

/-- What the calls read and write: each key's record, the bloom filter's bits, the counters. -/
@[ext]
structure View (K : Type) where
  records : K → KeyRecord
  bloom : Finset Nat
  changes : HashdbChanges

/-- The view of a store. -/
def view (s : Manager K) : View K := ⟨s.record, s.bloom, s.changes⟩

omit [DecidableEq K] in
/-- A store is determined by its view. -/
theorem eq_of_view_eq {s s' : Manager K} (h : view s = view s') : s = s' := by
  obtain ⟨hrec, hbloom, hch⟩ := View.ext_iff.1 h
  have hrec' : ∀ key, s.record key = s'.record key := congrFun hrec
  have hmap : s.map = s'.map := funext fun key => congrArg KeyRecord.pay (hrec' key)
  have hmm : s.multimap = s'.multimap :=
    MultimapManager.ext_pays (funext fun key => congrArg KeyRecord.pays (hrec' key))
  cases s; cases s'
  simp only [view] at hbloom hch hmap hmm
  subst hbloom hch hmap hmm
  rfl

/-- A call on the view, as `Call.onRecord`, `Call.bloomAfter` and `Call.changed` describe it. -/
def viewStep (cfg : Config K) (v : View K) (c : Call K) : View K :=
  ⟨Function.update v.records c.key (c.onRecord cfg.encoding (v.records c.key)).1,
    c.bloomAfter cfg v.bloom, v.changes.add (c.changed cfg.encoding (v.records c.key))⟩

theorem view_step (hb : BloomCovers cfg s) (c : Call K) :
    view (step cfg s c) = viewStep cfg (view s) c :=
  View.ext (record_step hb c) (step_agrees hb c).2.2.1 (changes_step hb c)

theorem view_run (hb : BloomCovers cfg s) (calls : List (Call K)) :
    view (run cfg s calls) = calls.foldl (viewStep cfg) (view s) := by
  induction calls generalizing s with
  | nil => rfl
  | cons c cs ih => rw [run_cons, ih (bloomCovers_step hb c), view_step hb c]; rfl

/-- Calls on different keys commute on the view. -/
theorem viewStep_comm (v : View K) {c d : Call K} (h : c.key ≠ d.key) :
    viewStep cfg (viewStep cfg v c) d = viewStep cfg (viewStep cfg v d) c := by
  refine View.ext ?_ (bloomAfter_comm cfg v.bloom c d) ?_
  · simp only [viewStep, Function.update_noteq h, Function.update_noteq (Ne.symm h)]
    exact Function.update_comm h _ _ _
  · simp only [viewStep, Function.update_noteq h, Function.update_noteq (Ne.symm h),
      HashdbChanges.add_right_comm]

/-- Two runs with the same calls on each key, in the same order, leave the same store: map,
multimap, bloom filter and counters. -/
theorem interleaved_calls_agree (hb : BloomCovers cfg s) {calls₁ calls₂ : List (Call K)}
    (h : ∀ key, calls₁.filter (·.key = key) = calls₂.filter (·.key = key)) :
    run cfg s calls₁ = run cfg s calls₂ := by
  refine eq_of_view_eq ?_
  rw [view_run hb, view_run hb]
  exact foldl_eq_of_filter_eq _ Call.key (fun v _ _ => viewStep_comm v) _ _ h _

/-- Calls on keys 1 and 2, in both orders, from the empty store. -/
theorem interleaved_calls_agree_swap :
    let c₁ : Call Nat := .emplace 1 5
    let c₂ : Call Nat := .emplace 2 6
    BloomCovers plainConfig (Manager.empty : Manager Nat) ∧
      (∀ key, [c₁, c₂].filter (·.key = key) = [c₂, c₁].filter (·.key = key)) ∧
      run plainConfig Manager.empty [c₁, c₂] = run plainConfig Manager.empty [c₂, c₁] := by
  intro c₁ c₂
  have h : ∀ key, [c₁, c₂].filter (·.key = key) = [c₂, c₁].filter (·.key = key) := fun key => by
    by_cases h1 : (1 : Nat) = key
    · subst h1; decide
    · by_cases h2 : (2 : Nat) = key
      · subst h2; decide
      · simp [c₁, c₂, Call.key, h1, h2]
  exact ⟨bloomCovers_empty plainConfig, h, interleaved_calls_agree (bloomCovers_empty plainConfig) h⟩

end Run

end MapMultimap
end HashDb

import HashDb.MapMultimap.Manager

/-!
# What a call does to its key

A call of `map_multimap_manager_t` reads and writes only its own key's map pay and multimap
pays, and `emplace` sets the key's bloom bits. `KeyRecord` is what the store holds for one key,
and `Call.onRecord` what a call does to it: the record it leaves, and the message it throws.

`step_agrees` says so of the C++ code once, for every call: it is the only place the calls are
run symbolically. It needs the bloom filter to have every key of the map
(`BloomCovers`), as it does after every run (`bloomCovers_run`); without that, an `emplace`
the filter wrongly rejects would fail in `map_emplace`.
-/

namespace HashDb
namespace MapMultimap

/-- What the store holds for one key: its map pay, and its multimap pays in order. -/
structure KeyRecord where
  pay : Option UInt64
  pays : List UInt64
  deriving DecidableEq

variable {K : Type} [DecidableEq K]

/-- The record the store holds for `key`. -/
def Manager.record (s : Manager K) (key : K) : KeyRecord := ⟨s.map key, s.multimap.pays key⟩

section OnRecord

variable (E : LookupEncoding) (sourceLookupEncoding : UInt64)

/-- `emplace` on the key's record. -/
def emplaceRecord : KeyRecord → KeyRecord × Option String
  | ⟨none, pays⟩ => (⟨some sourceLookupEncoding, pays⟩, none)
  | ⟨some pay, pays⟩ =>
    if E.getCount pay = 1 then
      if pay ∈ pays then (⟨some pay, pays⟩, some "multimap emplace failure")
      else if sourceLookupEncoding ∈ pays ++ [pay] then
        (⟨some (E.getSourceLookupEncoding 2), pays ++ [pay]⟩, some "multimap emplace failure")
      else (⟨some (E.getSourceLookupEncoding 2), pays ++ [pay, sourceLookupEncoding]⟩, none)
    else
      if sourceLookupEncoding ∈ pays then
        (⟨some (E.getSourceLookupEncoding ((E.getCount pay + 1) % 2 ^ 32)), pays⟩,
          some "multimap emplace failure")
      else
        (⟨some (E.getSourceLookupEncoding ((E.getCount pay + 1) % 2 ^ 32)),
          pays ++ [sourceLookupEncoding]⟩, none)

/-- `remove` on the key's record. -/
def removeRecord : KeyRecord → KeyRecord × Option String
  | ⟨none, pays⟩ => (⟨none, pays⟩, none)
  | ⟨some pay, pays⟩ =>
    if E.getCount pay = 1 then
      (if pay = sourceLookupEncoding then ⟨none, pays⟩ else ⟨some pay, pays⟩, none)
    else if E.getCount pay = 2 ∧ sourceLookupEncoding ∈ pays then
      match pays.erase sourceLookupEncoding with
      | [] => (⟨some pay, []⟩, some "equal_range is empty")
      | first :: rest =>
        (⟨some first, rest⟩,
          if rest = [] then none else some "corrupted multimap state failure")
    else (⟨some pay, pays.erase sourceLookupEncoding⟩, none)

/-- `remove_key` on the key's record. -/
def removeKeyRecord : KeyRecord → KeyRecord × Option String
  | ⟨none, pays⟩ => (⟨none, pays⟩, none)
  | ⟨some pay, pays⟩ =>
    if E.getCount pay = 1 then (⟨none, pays⟩, none)
    else (⟨some pay, []⟩, if pays = [] then some "multimap erase failure" else none)

end OnRecord

/-- A call on its key's record. -/
def Call.onRecord (E : LookupEncoding) : Call K → KeyRecord → KeyRecord × Option String
  | .emplace _ pay => emplaceRecord E pay
  | .remove _ pay => removeRecord E pay
  | .removeKey _ => removeKeyRecord E

/-- The bloom filter's bits after a call: `emplace` sets its key's. -/
def Call.bloomAfter (cfg : Config K) (bloom : Finset Nat) : Call K → Finset Nat
  | .emplace key _ => addHashValue cfg bloom key
  | _ => bloom

/-- Every key of the map has its bits set in the bloom filter. -/
def BloomCovers (cfg : Config K) (s : Manager K) : Prop :=
  ∀ key, s.map key ≠ none → isPositive cfg s.bloom key = true

/-- A run `r` of a call at `key` changed the store's record of `key` to `res.1` and no other,
left the bloom filter's bits as `bloom`, and threw `res.2`. -/
def Agrees (s : Manager K) (key : K) (res : KeyRecord × Option String) (bloom : Finset Nat)
    (r : EStateM.Result String (Manager K) Unit) : Prop :=
  (stateAfter r).map = Function.update s.map key res.1.pay ∧
  (stateAfter r).multimap.pays = Function.update s.multimap.pays key res.1.pays ∧
  (stateAfter r).bloom = bloom ∧ thrown r = res.2

section Agree

variable {cfg : Config K} {s : Manager K} {key : K} (sourceLookupEncoding : UInt64)

theorem emplace_agrees (hb : BloomCovers cfg s) :
    Agrees s key (emplaceRecord cfg.encoding sourceLookupEncoding (s.record key))
      (addHashValue cfg s.bloom key) ((emplace cfg key sourceLookupEncoding).run s) := by
  simp only [emplace, run_bind, run_get, mapEmplace, multimapEmplace, mapChange, modifyChanges,
    run_checked, run_modify, Manager.record]
  cases hk : s.map key with
  | none =>
    by_cases hp : isPositive cfg s.bloom key
    · simp only [Agrees, hp, Bool.not_true, Bool.false_eq_true, ↓reduceIte, MapManager.emplace,
        run_bind, run_checked, Manager.liftMap, hk, Option.map_some', run_modify, stateAfter_ok,
        emplaceRecord, Function.update_eq_self, addHashValue,
        Finset.union_eq_left.2 (of_decide_eq_true hp), thrown_ok, and_self]
    · simp only [Agrees, hp, Bool.not_false, ↓reduceIte, addHashValue, MapManager.emplace,
        run_bind, run_modify, run_checked, Manager.liftMap, hk, Option.map_some', stateAfter_ok,
        emplaceRecord, Function.update_eq_self, thrown_ok, and_self]
  | some pay =>
    -- the key is in the map, so the bloom filter already has its bits
    have hp := hb key (by simp [hk])
    have hu : addHashValue cfg s.bloom key = s.bloom :=
      Finset.union_eq_left.2 (of_decide_eq_true hp)
    by_cases h1 : cfg.encoding.getCount pay = 1
    · by_cases hq : pay ∈ s.multimap.pays key
      · simp only [Agrees, hp, Bool.not_true, Bool.false_eq_true, ↓reduceIte, h1,
          MultimapManager.emplace, run_bind, run_checked, Manager.liftMultimap, hq, ↓reduceDIte,
          Option.map_none', stateAfter_error, emplaceRecord, Function.eq_update_self_iff, hk,
          Function.update_eq_self, hu, thrown_error, and_self]
      · by_cases hpq : sourceLookupEncoding ∈ s.multimap.pays key ++ [pay] <;>
          simp only [Agrees, hp, Bool.not_true, Bool.false_eq_true, ↓reduceIte, h1,
            MultimapManager.emplace, MapManager.change, run_bind, run_checked,
            Manager.liftMultimap, hq, ↓reduceDIte, Option.map_some', Manager.liftMap, hk,
            reduceCtorEq, Function.update_same, hpq, Option.map_none', stateAfter_error,
            emplaceRecord, hu, thrown_error, and_self, List.append_assoc, List.singleton_append,
            Function.update_idem, run_modify, stateAfter_ok, thrown_ok]
    · by_cases hm : sourceLookupEncoding ∈ s.multimap.pays key <;>
        simp only [Agrees, hp, Bool.not_true, Bool.false_eq_true, ↓reduceIte, h1,
          MapManager.change, Nat.reducePow, MultimapManager.emplace, run_bind, run_checked,
          Manager.liftMap, hk, reduceCtorEq, Option.map_some', Manager.liftMultimap, hm,
          ↓reduceDIte, Option.map_none', stateAfter_error, emplaceRecord, Function.update_eq_self,
          hu, thrown_error, and_self, run_modify, stateAfter_ok, thrown_ok]

theorem remove_agrees :
    Agrees s key (removeRecord cfg.encoding sourceLookupEncoding (s.record key)) s.bloom
      ((remove cfg key sourceLookupEncoding).run s) := by
  simp only [remove, run_bind, run_get, mapErase, multimapErase, mapChange, modifyChanges,
    run_checked, run_modify, run_multimapManagerErase, Manager.record]
  cases hk : s.map key with
  | none => simp [hk, removeRecord, Agrees]
  | some pay =>
    by_cases h1 : cfg.encoding.getCount pay = 1
    · by_cases hq : pay = sourceLookupEncoding
      · subst hq
        simp [hk, h1, removeRecord, Agrees, Manager.liftMap, MapManager.erase]
      · simp [hk, h1, hq, removeRecord, Agrees]
    by_cases hm : sourceLookupEncoding ∈ s.multimap.pays key
    · by_cases h2 : cfg.encoding.getCount pay = 2
      · -- `equal_range(key).first` after the erase
        cases he : (s.multimap.pays key).erase sourceLookupEncoding with
        | nil => simp [hk, h1, h2, hm, he, removeRecord, Agrees, MultimapManager.erase]
        | cons first rest =>
          by_cases hr : rest = [] <;>
            simp [hk, h1, h2, hm, he, hr, removeRecord, Agrees, MultimapManager.erase,
              Manager.liftMap, Manager.liftMultimap, MapManager.change, MultimapManager.hasRange]
      · simp [hk, h1, h2, hm, removeRecord, Agrees, MultimapManager.erase]
    · by_cases h2 : cfg.encoding.getCount pay = 2 <;>
        simp [hk, h1, h2, hm, removeRecord, Agrees, MultimapManager.erase,
          List.erase_of_not_mem hm]

theorem removeKey_agrees :
    Agrees s key (removeKeyRecord cfg.encoding (s.record key)) s.bloom
      ((removeKey cfg key).run s) := by
  simp only [removeKey, run_bind, run_get, mapErase, multimapEraseRange, modifyChanges,
    run_checked, run_modify, Manager.record]
  cases hk : s.map key with
  | none => simp [hk, removeKeyRecord, Agrees]
  | some pay =>
    by_cases h1 : cfg.encoding.getCount pay = 1
    · simp [hk, h1, removeKeyRecord, Agrees, Manager.liftMap, MapManager.erase]
    · by_cases he : s.multimap.pays key = [] <;>
        simp [hk, h1, he, removeKeyRecord, Agrees, Manager.liftMultimap,
          MultimapManager.eraseRange]

/-- Every call does to the store what `Call.onRecord` says it does to its key's record. -/
theorem step_agrees (hb : BloomCovers cfg s) (c : Call K) :
    Agrees s c.key (c.onRecord cfg.encoding (s.record c.key)) (c.bloomAfter cfg s.bloom)
      ((c.run cfg).run s) := by
  cases c with
  | emplace key pay => exact emplace_agrees pay hb
  | remove key pay => exact remove_agrees pay
  | removeKey key => exact removeKey_agrees

end Agree

section Step

variable {cfg : Config K} {s : Manager K}

theorem record_step (hb : BloomCovers cfg s) (c : Call K) :
    (step cfg s c).record =
      Function.update s.record c.key (c.onRecord cfg.encoding (s.record c.key)).1 := by
  obtain ⟨hmap, hpays, -, -⟩ := step_agrees hb c
  funext k
  by_cases hk : k = c.key
  · subst hk
    simp [Manager.record, step, hmap, hpays]
  · simp [Manager.record, step, hmap, hpays, Function.update_noteq hk]

theorem thrown_step (hb : BloomCovers cfg s) (c : Call K) :
    thrown ((c.run cfg).run s) = (c.onRecord cfg.encoding (s.record c.key)).2 :=
  (step_agrees hb c).2.2.2

omit [DecidableEq K] in
theorem isPositive_mono {cfg : Config K} {bloom bloom' : Finset Nat} {key : K}
    (h : bloom ⊆ bloom') (hp : isPositive cfg bloom key = true) :
    isPositive cfg bloom' key = true := by
  simpa [isPositive] using (of_decide_eq_true hp).trans h

omit [DecidableEq K] in
theorem subset_bloomAfter (cfg : Config K) (bloom : Finset Nat) (c : Call K) :
    bloom ⊆ c.bloomAfter cfg bloom := by
  cases c <;> simp [Call.bloomAfter, addHashValue]

omit [DecidableEq K] in
/-- After a call its key is in the bloom filter if it is in the map: `emplace` sets its bits,
and `remove` and `remove_key` never add a key to the map. -/
theorem isPositive_bloomAfter (hb : BloomCovers cfg s) (c : Call K)
    (h : (c.onRecord cfg.encoding (s.record c.key)).1.pay ≠ none) :
    isPositive cfg (c.bloomAfter cfg s.bloom) c.key = true := by
  cases c with
  | emplace key pay => simp [Call.bloomAfter, isPositive, addHashValue, Call.key]
  | remove key pay =>
    refine hb key fun hk => h ?_
    simp [Call.onRecord, Call.key, Manager.record, hk, removeRecord]
  | removeKey key =>
    refine hb key fun hk => h ?_
    simp [Call.onRecord, Call.key, Manager.record, hk, removeKeyRecord]

/-- One call keeps every key of the map in the bloom filter, whether it returns or throws. -/
theorem bloomCovers_step (hb : BloomCovers cfg s) (c : Call K) :
    BloomCovers cfg (step cfg s c) := by
  obtain ⟨hmap, -, hbloom, -⟩ := step_agrees hb c
  intro k hk
  simp only [step, hmap] at hk
  simp only [step, hbloom]
  by_cases hkk : k = c.key
  · subst hkk
    exact isPositive_bloomAfter hb c (by simpa using hk)
  · rw [Function.update_noteq hkk] at hk
    exact isPositive_mono (subset_bloomAfter cfg s.bloom c) (hb k hk)

omit [DecidableEq K] in
theorem bloomCovers_empty (cfg : Config K) : BloomCovers cfg (Manager.empty : Manager K) :=
  fun _ h => absurd rfl h

theorem bloomCovers_run (hb : BloomCovers cfg s) (calls : List (Call K)) :
    BloomCovers cfg (run cfg s calls) := by
  induction calls generalizing s with
  | nil => exact hb
  | cons c cs ih => exact ih (bloomCovers_step hb c)

omit [DecidableEq K] in
/-- With the bloom filter holding every key of the map, `has_key` answers as the map does. -/
theorem hasKey_eq_has (hb : BloomCovers cfg s) (key : K) :
    hasKey cfg s key = MapManager.has s.map key := by
  by_cases hp : isPositive cfg s.bloom key
  · simp [hasKey, hp]
  · have hk : s.map key = none := by
      by_contra h
      exact hp (hb key h)
    simp [hasKey, hp, MapManager.has, hk]

end Step

end MapMultimap
end HashDb

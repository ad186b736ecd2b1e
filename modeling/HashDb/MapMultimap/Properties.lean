import HashDb.MapMultimap.Invariant

/-!
# Properties of `map_multimap_manager_t`

On every store the calls build from an empty one, whether each call returned or threw:

* `has_key` answers as the map does;
* a call that fits and is not one of the three the code gets wrong keeps every key in its
  shape, throws nothing, and adds, erases or clears the key's sources as it means to;
* each of the three leaves its key in no shape, so the shapes are not an invariant of the
  manager: `remove` at a count above two, `remove_key` at a count of two or more, and a
  repeated `emplace`;
* a call that throws is not undone: it leaves its key as its steps before the throw made it,
  and a repeated `emplace` throws only after it has changed the key's map pay.
-/

namespace HashDb
namespace MapMultimap

variable {K : Type} [DecidableEq K]

/-- Whatever the calls, and whether they returned or threw, `has_key` answers as the map does:
the bloom filter has every key of the map. -/
theorem has_key_iff_map (cfg : Config K) (calls : List (Call K)) (key : K) :
    hasKey cfg (run cfg Manager.empty calls) key =
      MapManager.has (run cfg Manager.empty calls).map key :=
  hasKey_eq_has (bloomCovers_run (bloomCovers_empty cfg) calls) key

/-- A setup for the fixed runs below: the `plain` encoding, and no bloom filter. -/
def plainConfig : Config Nat := ⟨LookupEncoding.plain, fun _ => ∅⟩

/-- On a store the calls build, a call that fits at a sound key and is one the code gets wrong
leaves the key in no shape. -/
theorem breaking_call_leaves_no_shape (cfg : Config K) (calls : List (Call K)) (c : Call K)
    (hs : Sound cfg.encoding ((run cfg Manager.empty calls).record c.key))
    (hf : c.Fits cfg.encoding ((run cfg Manager.empty calls).record c.key))
    (hc : c.Breaks ((run cfg Manager.empty calls).record c.key)) :
    ¬Shape cfg.encoding ((step cfg (run cfg Manager.empty calls) c).record c.key) := by
  have hb := bloomCovers_run (bloomCovers_empty cfg) calls
  rw [record_step hb c, Function.update_same]
  exact (onRecord_sound hs hf).2 hc

/-- `remove` of a multimap pay of a key with three. -/
theorem breaking_call_leaves_no_shape_three :
    Sound LookupEncoding.plain ((run plainConfig Manager.empty
        [.emplace 0 0, .emplace 0 1, .emplace 0 4294967296]).record 0) ∧
    (Call.remove 0 0).Fits LookupEncoding.plain ((run plainConfig Manager.empty
        [.emplace 0 0, .emplace 0 1, .emplace 0 4294967296]).record 0) ∧
    (Call.remove 0 0).Breaks ((run plainConfig Manager.empty
        [.emplace 0 0, .emplace 0 1, .emplace 0 4294967296]).record 0) ∧
    ¬Shape LookupEncoding.plain ((step plainConfig (run plainConfig Manager.empty
        [.emplace 0 0, .emplace 0 1, .emplace 0 4294967296]) (.remove 0 0)).record 0) :=
  have hs : Sound LookupEncoding.plain ((run plainConfig Manager.empty
      [.emplace 0 0, .emplace 0 1, .emplace 0 4294967296]).record 0) := by decide
  have hc : (Call.remove 0 0).Breaks ((run plainConfig Manager.empty
      [.emplace 0 0, .emplace 0 1, .emplace 0 4294967296]).record 0) := by decide
  ⟨hs, trivial, hc, breaking_call_leaves_no_shape plainConfig _ (.remove 0 0) hs trivial hc⟩

/-- From the empty store, a run of calls that each fit and are not ones the code gets wrong
throws nothing, keeps every key in its shape with one-source multimap pays, and leaves each
key standing for the sources the calls add, erase and clear. -/
theorem safe_run_refines (cfg : Config K) (calls : List (Call K))
    (h : SafeRun cfg Manager.empty calls) :
    (∀ m ∈ thrownRun cfg Manager.empty calls, m = none) ∧
      (∀ key, Sound cfg.encoding ((run cfg Manager.empty calls).record key)) ∧
      (run cfg Manager.empty calls).sources cfg.encoding = sourcesRun (fun _ => []) calls :=
  safeRun_sound (sound_record_empty cfg.encoding) (bloomCovers_empty cfg) h

/-- Two keys, three pays, one `remove` at a count of two. -/
theorem safe_run_refines_four :
    SafeRun plainConfig Manager.empty [.emplace 0 0, .emplace 0 1, .emplace 1 0, .remove 0 0] ∧
    ((∀ m ∈ thrownRun plainConfig Manager.empty
        [.emplace 0 0, .emplace 0 1, .emplace 1 0, .remove 0 0], m = none) ∧
      (∀ key, Sound LookupEncoding.plain ((run plainConfig Manager.empty
        [.emplace 0 0, .emplace 0 1, .emplace 1 0, .remove 0 0]).record key)) ∧
      (run plainConfig Manager.empty
        [.emplace 0 0, .emplace 0 1, .emplace 1 0, .remove 0 0]).sources LookupEncoding.plain =
        sourcesRun (fun _ => []) [.emplace 0 0, .emplace 0 1, .emplace 1 0, .remove 0 0]) :=
  have h : SafeRun plainConfig Manager.empty
      [.emplace 0 0, .emplace 0 1, .emplace 1 0, .remove 0 0] := by decide
  ⟨h, safe_run_refines plainConfig _ h⟩

omit [DecidableEq K] in
/-- A sound record has a map pay exactly when it stands for a source. -/
theorem Sound.pay_isSome_iff {E : LookupEncoding} {r : KeyRecord} (h : Sound E r) :
    r.pay.isSome ↔ r.sources E ≠ [] := by
  obtain ⟨hs, -⟩ := h
  cases hs with
  | absent => simp [KeyRecord.sources]
  | single hq => simp [KeyRecord.sources, hq]
  | @forward q pays h2 hlen =>
    simp only [KeyRecord.sources, Option.isSome_some, if_neg (show E.getCount q ≠ 1 by omega),
      true_iff]
    exact List.ne_nil_of_length_pos (by omega)

/-- From the empty store, on a run of calls that each fit and are not ones the code gets wrong,
`has_key` answers whether the key stands for a source in the store the calls mean to build. -/
theorem has_key_refines_sources (cfg : Config K) (calls : List (Call K))
    (h : SafeRun cfg Manager.empty calls) (key : K) :
    hasKey cfg (run cfg Manager.empty calls) key = decide (sourcesRun (fun _ => []) calls key ≠ []) := by
  obtain ⟨-, hsound, hsrc⟩ := safeRun_sound (sound_record_empty cfg.encoding)
    (bloomCovers_empty cfg) h
  have hkey : (run cfg Manager.empty calls).sources cfg.encoding key =
      sourcesRun (fun _ => []) calls key := congrFun hsrc key
  rw [hasKey_eq_has (bloomCovers_run (bloomCovers_empty cfg) calls), MapManager.has, ← hkey]
  exact Bool.eq_iff_iff.2 ((hsound key).pay_isSome_iff.trans decide_eq_true_iff.symm)

/-- Two keys, three pays, one `remove` at a count of two. -/
theorem has_key_refines_sources_four :
    let calls : List (Call Nat) := [.emplace 0 0, .emplace 0 1, .emplace 1 0, .remove 0 0]
    SafeRun plainConfig Manager.empty calls ∧
      hasKey plainConfig (run plainConfig Manager.empty calls) 1 =
        decide (sourcesRun (fun _ => []) calls 1 ≠ []) := by
  intro calls
  have h : SafeRun plainConfig Manager.empty calls := by decide
  exact ⟨h, has_key_refines_sources plainConfig calls h 1⟩

/-- The shapes are not an invariant. From the empty store, with three distinct pays the first of
which encodes one source: `remove` at a count of three keeps the count with two pays left, and
`remove_key` at a count of two keeps the map pay with no pays left, neither throwing; a repeated
`emplace` leaves a count of two with one pay when its second `multimap_emplace` throws. -/
theorem shape_invariant_failing_runs (cfg : Config K) (key : K) {p1 p2 p3 : UInt64}
    (h1 : cfg.encoding.getCount p1 = 1) (h12 : p1 ≠ p2) (h13 : p1 ≠ p3) (h23 : p2 ≠ p3) :
    (((run cfg Manager.empty
          [.emplace key p1, .emplace key p2, .emplace key p3, .remove key p1]).record key,
        thrownRun cfg Manager.empty
          [.emplace key p1, .emplace key p2, .emplace key p3, .remove key p1]) =
        (⟨some (cfg.encoding.getSourceLookupEncoding 3), [p2, p3]⟩, [none, none, none, none]) ∧
      ¬Consistent cfg (run cfg Manager.empty
        [.emplace key p1, .emplace key p2, .emplace key p3, .remove key p1])) ∧
    (((run cfg Manager.empty [.emplace key p1, .emplace key p2, .removeKey key]).record key,
        thrownRun cfg Manager.empty [.emplace key p1, .emplace key p2, .removeKey key]) =
        (⟨some (cfg.encoding.getSourceLookupEncoding 2), []⟩, [none, none, none]) ∧
      ¬Consistent cfg (run cfg Manager.empty [.emplace key p1, .emplace key p2, .removeKey key])) ∧
    (((run cfg Manager.empty [.emplace key p1, .emplace key p1]).record key,
        thrownRun cfg Manager.empty [.emplace key p1, .emplace key p1]) =
        (⟨some (cfg.encoding.getSourceLookupEncoding 2), [p1]⟩,
          [none, some "multimap emplace failure"]) ∧
      ¬Consistent cfg (run cfg Manager.empty [.emplace key p1, .emplace key p1])) := by
  have h3' : cfg.encoding.getCount (cfg.encoding.getSourceLookupEncoding 3) = 3 :=
    cfg.encoding.getCount_getSourceLookupEncoding 3 (by decide) (by decide)
  refine ⟨run_of_key_not_consistent cfg key _ (by simp [Call.key]) ?_ ?_,
    run_of_key_not_consistent cfg key _ (by simp [Call.key]) ?_ ?_,
    run_of_key_not_consistent cfg key _ (by simp [Call.key]) ?_ ?_⟩ <;>
  simp [recordRun, Call.onRecord, emplaceRecord, removeRecord, removeKeyRecord, shape_some_iff,
    h1, getCount_two, h3', h12, h13, h23, Ne.symm h12, Ne.symm h13, Ne.symm h23]

/-- The three runs at the `plain` encoding, with pays 0, 1 and `2^32`. -/
theorem shape_invariant_failing_runs_plain :
    LookupEncoding.plain.getCount 0 = 1 ∧
    (((run plainConfig Manager.empty
          [.emplace 0 0, .emplace 0 1, .emplace 0 4294967296, .remove 0 0]).record 0,
        thrownRun plainConfig Manager.empty
          [.emplace 0 0, .emplace 0 1, .emplace 0 4294967296, .remove 0 0]) =
        (⟨some (LookupEncoding.plain.getSourceLookupEncoding 3), [1, 4294967296]⟩,
          [none, none, none, none]) ∧
      ¬Consistent plainConfig (run plainConfig Manager.empty
        [.emplace 0 0, .emplace 0 1, .emplace 0 4294967296, .remove 0 0])) ∧
    (((run plainConfig Manager.empty [.emplace 0 0, .emplace 0 1, .removeKey 0]).record 0,
        thrownRun plainConfig Manager.empty [.emplace 0 0, .emplace 0 1, .removeKey 0]) =
        (⟨some (LookupEncoding.plain.getSourceLookupEncoding 2), []⟩, [none, none, none]) ∧
      ¬Consistent plainConfig (run plainConfig Manager.empty
        [.emplace 0 0, .emplace 0 1, .removeKey 0])) ∧
    (((run plainConfig Manager.empty [.emplace 0 0, .emplace 0 0]).record 0,
        thrownRun plainConfig Manager.empty [.emplace 0 0, .emplace 0 0]) =
        (⟨some (LookupEncoding.plain.getSourceLookupEncoding 2), [0]⟩,
          [none, some "multimap emplace failure"]) ∧
      ¬Consistent plainConfig (run plainConfig Manager.empty [.emplace 0 0, .emplace 0 0])) :=
  have h0 : LookupEncoding.plain.getCount 0 = 1 := by decide
  ⟨h0, shape_invariant_failing_runs plainConfig 0 h0 (by decide) (by decide) (by decide)⟩

/-- A call that throws changes only its own key, and not the bloom filter: an `emplace` throws
only on a key of the map, whose bits are already set. -/
theorem throw_frame {cfg : Config K} {s : Manager K} (hb : BloomCovers cfg s) {c : Call K}
    (ht : thrown ((c.run cfg).run s) ≠ none) :
    (∀ k, k ≠ c.key → (step cfg s c).record k = s.record k) ∧ (step cfg s c).bloom = s.bloom := by
  obtain ⟨-, -, hbloom, hthrown⟩ := step_agrees hb c
  refine ⟨fun k hk => by rw [record_step hb c, Function.update_noteq hk], ?_⟩
  rw [step, hbloom]
  cases c with
  | emplace key pay =>
    cases hk : s.map key with
    | none =>
      simp [hthrown, Call.onRecord, Call.key, Manager.record, hk, emplaceRecord] at ht
    | some q =>
      exact Finset.union_eq_left.2 (of_decide_eq_true (hb key (by simp [hk])))
  | remove key pay => rfl
  | removeKey key => rfl

/-- A throw is not undone. On every store the calls build, a call that throws changes only its
own key and not the bloom filter, leaving the key as the call's steps before the throw made
it; and re-emplacing a stored `(key, pay)` throws "multimap emplace failure" only after it has
changed the key's map pay: a one-source map pay is moved to the multimap under a count of two,
and a pay already in the multimap leaves the key's count raised by one. -/
theorem throw_keeps_partial_update (cfg : Config K) (calls : List (Call K)) (c : Call K) (key : K)
    (pay p : UInt64) :
    (thrown ((c.run cfg).run (run cfg Manager.empty calls)) ≠ none →
      (∀ k, k ≠ c.key →
        (step cfg (run cfg Manager.empty calls) c).record k =
          (run cfg Manager.empty calls).record k) ∧
      (step cfg (run cfg Manager.empty calls) c).bloom = (run cfg Manager.empty calls).bloom) ∧
    ((run cfg Manager.empty calls).record key = ⟨some pay, []⟩ → cfg.encoding.getCount pay = 1 →
      thrown (((Call.emplace key pay).run cfg).run (run cfg Manager.empty calls)) =
          some "multimap emplace failure" ∧
        (step cfg (run cfg Manager.empty calls) (.emplace key pay)).record key =
          ⟨some (cfg.encoding.getSourceLookupEncoding 2), [pay]⟩) ∧
    ((run cfg Manager.empty calls).map key = some p → cfg.encoding.getCount p ≠ 1 →
      pay ∈ (run cfg Manager.empty calls).multimap.pays key →
      thrown (((Call.emplace key pay).run cfg).run (run cfg Manager.empty calls)) =
          some "multimap emplace failure" ∧
        (step cfg (run cfg Manager.empty calls) (.emplace key pay)).record key =
          ⟨some (cfg.encoding.getSourceLookupEncoding ((cfg.encoding.getCount p + 1) % 2 ^ 32)),
            (run cfg Manager.empty calls).multimap.pays key⟩) := by
  have hb := bloomCovers_run (bloomCovers_empty cfg) calls
  have hrec : ∀ pay, (step cfg (run cfg Manager.empty calls) (.emplace key pay)).record key =
      (emplaceRecord cfg.encoding pay ((run cfg Manager.empty calls).record key)).1 := fun pay => by
    rw [record_step hb, Call.key, Function.update_same]; rfl
  refine ⟨throw_frame hb, fun hr h1 => ?_, fun hm hc hp => ?_⟩
  · rw [thrown_step hb, hrec]
    simp [Call.onRecord, Call.key, hr, emplaceRecord, h1]
  · have hr : (run cfg Manager.empty calls).record key =
        ⟨some p, (run cfg Manager.empty calls).multimap.pays key⟩ := by
      simp [Manager.record, hm]
    rw [thrown_step hb, hrec]
    simp [Call.onRecord, Call.key, hr, emplaceRecord, hc, hp]

/-- From the store of one `emplace(0, 0)`, repeating it throws and leaves key 0 changed. -/
theorem repeated_emplace_changes_before_throw :
    thrown (((Call.emplace 0 0).run plainConfig).run
        (run plainConfig Manager.empty [.emplace 0 0])) = some "multimap emplace failure" ∧
      (step plainConfig (run plainConfig Manager.empty [.emplace 0 0]) (.emplace 0 0)).record 0 ≠
        (run plainConfig Manager.empty [.emplace 0 0]).record 0 := by
  decide

end MapMultimap
end HashDb

import HashDb.MapMultimap.KeyRecord

/-!
# The store's shapes, and the calls that break them

The map and the multimap are meant to agree key by key (`Shape`): a key is absent from both; or
the map holds a pay encoding one source and the multimap has nothing for the key; or the map
holds a count `c ≥ 2` and the multimap the key's `c` pays. Read that way, a key stands for its
source pays (`KeyRecord.sources`), the ones `hashdb_iterator_t` walks, and the calls add, erase
or clear them (`Call.onSources`).

From well-shaped records, a call keeps every key well shaped and does that to its sources,
unless it is one of three calls the code gets wrong (`Call.Breaks`): `remove` of a multimap pay
of a key with more than two does not lower the count, `remove_key` of a key with two or more
does not erase the map pay, and `emplace` of a pay the key already has raises the count before
`multimap_emplace` throws. Each of them always leaves the key in no shape. Whatever the calls,
the bloom filter has every key of the map, so `has_key` answers as the map does.
-/

namespace HashDb
namespace MapMultimap

/-- The three shapes a key's record may take. -/
inductive Shape (E : LookupEncoding) : KeyRecord → Prop
  | absent : Shape E ⟨none, []⟩
  | single {pay : UInt64} (hcount : E.getCount pay = 1) : Shape E ⟨some pay, []⟩
  | forward {pay : UInt64} {pays : List UInt64} (hcount : 2 ≤ E.getCount pay)
      (hlen : pays.length = E.getCount pay) : Shape E ⟨some pay, pays⟩

/-- A record in one of the three shapes whose multimap pays each encode one source. -/
structure Sound (E : LookupEncoding) (r : KeyRecord) : Prop where
  shape : Shape E r
  sources : ∀ pay ∈ r.pays, E.getCount pay = 1

/-- The pays a key stands for: the map pay of a one-source key, the multimap pays of a key whose
map pay is a count (hashdb_iterator_test.cpp walks a forwarded key's multimap pays). -/
def KeyRecord.sources (E : LookupEncoding) : KeyRecord → List UInt64
  | ⟨none, _⟩ => []
  | ⟨some pay, pays⟩ => if E.getCount pay = 1 then [pay] else pays

variable {K : Type} [DecidableEq K]

/-- What a call is meant to do to its key's sources. -/
def Call.onSources : Call K → List UInt64 → List UInt64
  | .emplace _ pay, sources => sources ++ [pay]
  | .remove _ pay, sources => sources.erase pay
  | .removeKey _, _ => []

/-- The store as its interface means it: each key's sources after the calls, from `σ`. -/
def sourcesRun : (K → List UInt64) → List (Call K) → K → List UInt64
  | σ, [] => σ
  | σ, c :: cs => sourcesRun (Function.update σ c.key (c.onSources (σ c.key))) cs

/-- The call's pay encodes one source, and an `emplace` keeps the key's count a `uint32_t`. -/
def Call.Fits (E : LookupEncoding) : Call K → KeyRecord → Prop
  | .emplace _ pay, r => E.getCount pay = 1 ∧ r.pays.length + 1 < 2 ^ 32
  | .remove _ _, _ => True
  | .removeKey _, _ => True

instance (E : LookupEncoding) (c : Call K) (r : KeyRecord) : Decidable (c.Fits E r) :=
  match c with
  | .emplace _ _ => inferInstanceAs (Decidable (_ ∧ _))
  | .remove _ _ => inferInstanceAs (Decidable True)
  | .removeKey _ => inferInstanceAs (Decidable True)

/-- The calls the code gets wrong: `emplace` of a pay the key already has, `remove` of a
multimap pay of a key with more than two, `remove_key` of a key with two or more. -/
def Call.Breaks : Call K → KeyRecord → Prop
  | .emplace _ pay, r => r.pay = some pay ∨ pay ∈ r.pays
  | .remove _ pay, r => 2 < r.pays.length ∧ pay ∈ r.pays
  | .removeKey _, r => 2 ≤ r.pays.length

instance (c : Call K) (r : KeyRecord) : Decidable (c.Breaks r) :=
  match c with
  | .emplace _ _ => inferInstanceAs (Decidable (_ ∨ _))
  | .remove _ _ => inferInstanceAs (Decidable (_ ∧ _))
  | .removeKey _ => inferInstanceAs (Decidable (_ ≤ _))

/-! ## Records -/

section Records

variable {E : LookupEncoding}

theorem shape_some_iff {pay : UInt64} {pays : List UInt64} :
    Shape E ⟨some pay, pays⟩ ↔
      E.getCount pay = 1 ∧ pays = [] ∨ 2 ≤ E.getCount pay ∧ pays.length = E.getCount pay := by
  constructor
  · rintro (_ | h | ⟨h2, hlen⟩)
    exacts [.inl ⟨h, rfl⟩, .inr ⟨h2, hlen⟩]
  · rintro (⟨h, rfl⟩ | ⟨h2, hlen⟩)
    exacts [.single h, .forward h2 hlen]

theorem shape_none_iff {pays : List UInt64} : Shape E ⟨none, pays⟩ ↔ pays = [] :=
  ⟨by rintro ⟨⟩; rfl, by rintro rfl; exact .absent⟩

instance (E : LookupEncoding) (r : KeyRecord) : Decidable (Shape E r) :=
  match r with
  | ⟨none, _⟩ => decidable_of_iff _ shape_none_iff.symm
  | ⟨some _, _⟩ => decidable_of_iff _ shape_some_iff.symm

instance (E : LookupEncoding) (r : KeyRecord) : Decidable (Sound E r) :=
  decidable_of_iff (Shape E r ∧ ∀ pay ∈ r.pays, E.getCount pay = 1)
    ⟨fun h => ⟨h.1, h.2⟩, fun h => ⟨h.1, h.2⟩⟩

theorem getCount_two : E.getCount (E.getSourceLookupEncoding 2) = 2 :=
  E.getCount_getSourceLookupEncoding 2 le_rfl (by decide)

/-- From a sound record, `emplace` of a new source pay appends it; of one the key has, it
leaves the key in no shape. -/
theorem emplaceRecord_sound {r : KeyRecord} {p : UInt64} (h : Sound E r)
    (hp : E.getCount p = 1) (hlen : r.pays.length + 1 < 2 ^ 32) :
    (¬(r.pay = some p ∨ p ∈ r.pays) → Sound E (emplaceRecord E p r).1 ∧
      (emplaceRecord E p r).2 = none ∧ (emplaceRecord E p r).1.sources E = r.sources E ++ [p]) ∧
    (r.pay = some p ∨ p ∈ r.pays → ¬Shape E (emplaceRecord E p r).1) := by
  obtain ⟨hs, hsrc⟩ := h
  cases hs with
  | absent =>
    refine ⟨fun _ => ⟨⟨.single hp, by simp [emplaceRecord]⟩, rfl,
      by simp [emplaceRecord, KeyRecord.sources, hp]⟩, ?_⟩
    simp
  | @single q hq =>
    by_cases hpq : p = q
    · subst hpq
      refine ⟨fun hb => absurd (.inl rfl) hb, fun _ => ?_⟩
      simp [emplaceRecord, hq, shape_some_iff, getCount_two]
    · have hne : ¬((some q : Option UInt64) = some p ∨ p ∈ ([] : List UInt64)) := by
        simp [Ne.symm hpq]
      refine ⟨fun _ => ⟨⟨?_, ?_⟩, ?_, ?_⟩, fun hb => absurd hb hne⟩
      · simp [emplaceRecord, hq, hpq, shape_some_iff, getCount_two]
      · simp [emplaceRecord, hq, hpq, hp]
      · simp [emplaceRecord, hq, hpq]
      · simp [emplaceRecord, hq, hpq, KeyRecord.sources, getCount_two]
  | @forward q pays h2 hcount =>
    have hq : E.getCount q ≠ 1 := by omega
    -- the new count, `count + 1`, does not wrap
    have hc : E.getCount (E.getSourceLookupEncoding ((E.getCount q + 1) % 2 ^ 32)) =
        E.getCount q + 1 := by
      simp only [KeyRecord.pays] at hlen
      rw [Nat.mod_eq_of_lt (by omega), E.getCount_getSourceLookupEncoding _ (by omega) (by omega)]
    have hpq : q ≠ p := fun h => hq (h ▸ hp)
    by_cases hm : p ∈ pays
    · refine ⟨fun hb => absurd (.inr hm) hb, fun _ => ?_⟩
      simp only [emplaceRecord, hq, hm, if_true, if_false, shape_some_iff, hc]
      omega
    · have hne : ¬((some q : Option UInt64) = some p ∨ p ∈ pays) := by simp [hpq, hm]
      refine ⟨fun _ => ⟨⟨?_, ?_⟩, ?_, ?_⟩, fun hb => absurd hb hne⟩
      · simp only [emplaceRecord, hq, hm, if_false, shape_some_iff, hc, List.length_append,
          List.length_singleton]
        omega
      · simpa [emplaceRecord, hq, hm] using fun x hx => (hx.elim (hsrc x) fun h => h ▸ hp)
      · simp [emplaceRecord, hq, hm]
      · simp only [emplaceRecord, hq, hm, if_false, KeyRecord.sources, hc,
          show E.getCount q + 1 ≠ 1 by omega]

/-- From a sound record, `remove` erases the pay from the key's sources; of a multimap pay of a
key with more than two, it leaves the key in no shape. -/
theorem removeRecord_sound {r : KeyRecord} {p : UInt64} (h : Sound E r) :
    (¬(2 < r.pays.length ∧ p ∈ r.pays) → Sound E (removeRecord E p r).1 ∧
      (removeRecord E p r).2 = none ∧ (removeRecord E p r).1.sources E = (r.sources E).erase p) ∧
    (2 < r.pays.length ∧ p ∈ r.pays → ¬Shape E (removeRecord E p r).1) := by
  obtain ⟨hs, hsrc⟩ := h
  cases hs with
  | absent => exact ⟨fun _ => ⟨⟨.absent, by simp [removeRecord]⟩, rfl, rfl⟩, by simp⟩
  | @single q hq =>
    refine ⟨fun _ => ?_, by simp⟩
    by_cases hqp : q = p
    · subst hqp
      exact ⟨⟨by simpa [removeRecord, hq] using Shape.absent, by simp [removeRecord, hq]⟩,
        by simp [removeRecord, hq], by simp [removeRecord, hq, KeyRecord.sources]⟩
    · exact ⟨⟨by simpa [removeRecord, hq, hqp] using Shape.single hq,
        by simp [removeRecord, hq, hqp]⟩,
        by simp [removeRecord, hq, hqp], by simp [removeRecord, hq, hqp, KeyRecord.sources]⟩
  | @forward q pays h2 hcount =>
    have hq : E.getCount q ≠ 1 := by omega
    by_cases hm : p ∈ pays
    · by_cases hc2 : E.getCount q = 2
      · -- the last multimap pay moves back to the map
        have hlen : (pays.erase p).length = 1 := by rw [List.length_erase_of_mem hm]; omega
        obtain ⟨first, hfirst⟩ := List.length_eq_one.1 hlen
        have hfm : first ∈ pays := List.mem_of_mem_erase (hfirst ▸ List.mem_singleton_self _)
        refine ⟨fun _ => ?_, fun hb => by simp at hb; omega⟩
        simp only [removeRecord, hq, hc2, hm, and_self, if_true, if_false, hfirst,
          KeyRecord.sources]
        exact ⟨⟨.single (hsrc first hfm), by simp⟩, rfl, by simp [hsrc first hfm, hq, hfirst]⟩
      · -- a count above two stays as it is
        refine ⟨fun hb => absurd ⟨by simp only [KeyRecord.pays]; omega, hm⟩ hb, fun _ => ?_⟩
        simp only [removeRecord, hq, hc2, false_and, if_false, shape_some_iff,
          List.length_erase_of_mem hm, false_or]
        omega
    · refine ⟨fun _ => ?_, fun hb => absurd hb.2 hm⟩
      have hpays : pays.erase p = pays := List.erase_of_not_mem hm
      refine ⟨⟨?_, ?_⟩, ?_, ?_⟩
      · simpa [removeRecord, hq, hm, hpays] using Shape.forward h2 hcount
      · simpa [removeRecord, hq, hm, hpays] using hsrc
      · simp [removeRecord, hq, hm]
      · simp [removeRecord, hq, hm, hpays, KeyRecord.sources]

/-- From a sound record, `remove_key` clears the key's sources; for a key with two or more, it
leaves the key in no shape. -/
theorem removeKeyRecord_sound {r : KeyRecord} (h : Sound E r) :
    (¬2 ≤ r.pays.length → Sound E (removeKeyRecord E r).1 ∧
      (removeKeyRecord E r).2 = none ∧ (removeKeyRecord E r).1.sources E = []) ∧
    (2 ≤ r.pays.length → ¬Shape E (removeKeyRecord E r).1) := by
  obtain ⟨hs, -⟩ := h
  cases hs with
  | absent => exact ⟨fun _ => ⟨⟨.absent, by simp [removeKeyRecord]⟩, rfl, rfl⟩, by simp⟩
  | @single q hq =>
    exact ⟨fun _ => ⟨⟨by simpa [removeKeyRecord, hq] using Shape.absent,
        by simp [removeKeyRecord, hq]⟩,
      by simp [removeKeyRecord, hq], by simp [removeKeyRecord, hq, KeyRecord.sources]⟩, by simp⟩
  | @forward q pays h2 hcount =>
    refine ⟨fun hb => absurd (by simp only [KeyRecord.pays]; omega) hb, fun _ => ?_⟩
    simp only [removeKeyRecord, show E.getCount q ≠ 1 by omega, if_false, shape_some_iff,
      List.length_nil, false_and, false_or]
    omega

omit [DecidableEq K] in
/-- Every call, from a sound record: unless it breaks the key, it leaves a sound record, throws
nothing, and does to the key's sources what it means to; if it breaks the key, the key is left
in no shape. -/
theorem onRecord_sound {c : Call K} {r : KeyRecord} (h : Sound E r) (hf : c.Fits E r) :
    (¬c.Breaks r → Sound E (c.onRecord E r).1 ∧ (c.onRecord E r).2 = none ∧
      (c.onRecord E r).1.sources E = c.onSources (r.sources E)) ∧
    (c.Breaks r → ¬Shape E (c.onRecord E r).1) := by
  cases c with
  | emplace key p => exact emplaceRecord_sound h hf.1 hf.2
  | remove key p => exact removeRecord_sound h
  | removeKey key => exact removeKeyRecord_sound h

end Records

/-! ## The store -/

/-- The invariant the code is written to keep: every key in one of the three shapes, and every
key of the map in the bloom filter. -/
def Consistent (cfg : Config K) (s : Manager K) : Prop :=
  (∀ key, Shape cfg.encoding (s.record key)) ∧ BloomCovers cfg s

/-- The sources of each key of the store. -/
def Manager.sources (E : LookupEncoding) (s : Manager K) (key : K) : List UInt64 :=
  (s.record key).sources E

/-- What each call of a run threw, in order (`none` for a call that returned). -/
def thrownRun (cfg : Config K) : Manager K → List (Call K) → List (Option String)
  | _, [] => []
  | s, c :: cs => thrown ((c.run cfg).run s) :: thrownRun cfg (step cfg s c) cs

/-- Each call of the run fits and is not one the code gets wrong, at the store it is made in. -/
def SafeRun (cfg : Config K) : Manager K → List (Call K) → Prop
  | _, [] => True
  | s, c :: cs => c.Fits cfg.encoding (s.record c.key) ∧ ¬c.Breaks (s.record c.key) ∧
      SafeRun cfg (step cfg s c) cs

instance instDecidableSafeRun (cfg : Config K) :
    (s : Manager K) → (calls : List (Call K)) → Decidable (SafeRun cfg s calls)
  | _, [] => isTrue trivial
  | s, c :: cs =>
    have := instDecidableSafeRun cfg (step cfg s c) cs
    inferInstanceAs (Decidable (_ ∧ _ ∧ _))

/-- Calls at one key, on its record: the record after them and what each threw. -/
def recordRun (E : LookupEncoding) :
    KeyRecord → List (Call K) → KeyRecord × List (Option String)
  | r, [] => (r, [])
  | r, c :: cs =>
    let rest := recordRun E (c.onRecord E r).1 cs
    (rest.1, (c.onRecord E r).2 :: rest.2)

section Store

variable {cfg : Config K} {s : Manager K}

omit [DecidableEq K] in
theorem sound_record_empty (E : LookupEncoding) (key : K) :
    Sound E ((Manager.empty : Manager K).record key) :=
  ⟨.absent, fun _ h => absurd h (List.not_mem_nil _)⟩

/-- A call that fits and is not one the code gets wrong keeps every key sound, throws nothing,
and does to its key's sources what it means to. -/
theorem step_sound (hs : ∀ key, Sound cfg.encoding (s.record key)) (hb : BloomCovers cfg s)
    {c : Call K} (hf : c.Fits cfg.encoding (s.record c.key)) (hc : ¬c.Breaks (s.record c.key)) :
    thrown ((c.run cfg).run s) = none ∧ (∀ key, Sound cfg.encoding ((step cfg s c).record key)) ∧
      (step cfg s c).sources cfg.encoding =
        Function.update (s.sources cfg.encoding) c.key
          (c.onSources (s.sources cfg.encoding c.key)) := by
  obtain ⟨hsound, hthrown, hsrc⟩ := (onRecord_sound (hs c.key) hf).1 hc
  have hr := record_step hb c
  refine ⟨(thrown_step hb c).trans hthrown, fun key => ?_, funext fun key => ?_⟩
  · by_cases hk : key = c.key
    · subst hk
      rw [hr, Function.update_same]
      exact hsound
    · rw [hr, Function.update_noteq hk]
      exact hs key
  · by_cases hk : key = c.key
    · subst hk
      simp [Manager.sources, hr, hsrc]
    · simp [Manager.sources, hr, Function.update_noteq hk]

/-- A run of such calls keeps every key sound, throws nothing, and does to the sources what the
calls mean to. -/
theorem safeRun_sound (hs : ∀ key, Sound cfg.encoding (s.record key)) (hb : BloomCovers cfg s)
    {calls : List (Call K)} (h : SafeRun cfg s calls) :
    (∀ m ∈ thrownRun cfg s calls, m = none) ∧
      (∀ key, Sound cfg.encoding ((run cfg s calls).record key)) ∧
      (run cfg s calls).sources cfg.encoding = sourcesRun (s.sources cfg.encoding) calls := by
  induction calls generalizing s with
  | nil => exact ⟨by simp [thrownRun], hs, rfl⟩
  | cons c cs ih =>
    obtain ⟨hf, hc, hrest⟩ := h
    obtain ⟨hthrown, hs', hsrc⟩ := step_sound hs hb hf hc
    obtain ⟨ht, hs'', hsrc'⟩ := ih hs' (bloomCovers_step hb c) hrest
    refine ⟨?_, hs'', by rw [run_cons, hsrc', hsrc]; rfl⟩
    simpa [thrownRun, hthrown] using ht

/-- Calls all at one key act on its record one after another. -/
theorem record_run_of_key (hb : BloomCovers cfg s) (key : K) (calls : List (Call K))
    (hkey : ∀ c ∈ calls, c.key = key) :
    ((run cfg s calls).record key, thrownRun cfg s calls) =
      recordRun cfg.encoding (s.record key) calls := by
  induction calls generalizing s with
  | nil => rfl
  | cons c cs ih =>
    have hc : c.key = key := hkey c (List.mem_cons_self _ _)
    have hrec : (step cfg s c).record key = (c.onRecord cfg.encoding (s.record key)).1 := by
      rw [record_step hb c, ← hc, Function.update_same]
    rw [run_cons, thrownRun, recordRun, ← hrec, ← ih (bloomCovers_step hb c)
      fun c' hc' => hkey c' (List.mem_cons_of_mem _ hc'), thrown_step hb c, hc]

/-- A run from the empty store of calls at one key ends as `recordRun` says; if that record is
in no shape, the store is not consistent. -/
theorem run_of_key_not_consistent (cfg : Config K) (key : K) (calls : List (Call K))
    (hkey : ∀ c ∈ calls, c.key = key) {r : KeyRecord} {t : List (Option String)}
    (h : recordRun cfg.encoding ⟨none, []⟩ calls = (r, t)) (hn : ¬Shape cfg.encoding r) :
    ((run cfg Manager.empty calls).record key, thrownRun cfg Manager.empty calls) = (r, t) ∧
      ¬Consistent cfg (run cfg Manager.empty calls) := by
  have hrun := (record_run_of_key (bloomCovers_empty cfg) key calls hkey).trans h
  have hr : (run cfg Manager.empty calls).record key = r := (Prod.ext_iff.1 hrun).1
  exact ⟨hrun, fun hc => hn (hr ▸ hc.1 key)⟩

end Store

end MapMultimap
end HashDb

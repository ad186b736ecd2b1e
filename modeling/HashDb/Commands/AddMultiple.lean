import HashDb.HashData.Iteration
import HashDb.HashData.Properties

/-!
# `commands::add_multiple`

`add_multiple` (src/src/commands.hpp) copies the hashes of several hash databases, the
producers, into one, in hash order: a k-way merge. It keeps `ordered_producers`, a
`std::multimap<std::string, producer_t>` from a producer's current hash to the producer. It
opens each producer with `hash_begin()` and enqueues it under its first hash if it has one;
then, while the multimap is not empty, it takes the entry at `begin()`, calls the producer's
adder on the hash, asks the producer for `hash_next`, erases the entry, and enqueues the
producer again under its next hash if it has one.

* `LoopReach` is every state of the loop: the multimap, and the adder calls made so far. Every
  such state keeps `MergeInv` (`LoopReach.inv`): the hashes each producer has given so far are
  the first hashes of its store, in order, and the multimap holds one entry for it, keyed by
  its next hash, or none once it is exhausted.
* From it, on reachable producers the loop ends, calls each producer's adder once for each of
  its hashes and never otherwise, and gives the hashes in nondecreasing order: a merge of the
  producers' hashes (`add_multiple_merges`).
* `std::multimap::insert` puts an entry after every entry with an equal key, so the calls on one
  hash come in the order their producers were enqueued under it, not in the producers' order:
  of producers holding `[a, b]` and `[b]`, the second adds `b` first (`add_multiple_tie_order`).
  Every state of the loop keeps `TieInv`, and the calls are in the order `TieBefore`: by the
  hash and the producer's hashes before it, latest first, and then by position
  (`add_multiple_ties_by_queue_order`).

The adders' work, `adder_t::add`, is not modelled: a call is recorded as the producer's position
and the hash.
-/

namespace HashDb
namespace Commands

open Lmdb HashData

/-! ## The merge -/

/-- A `producer_t`: the producer's `scan_manager_t`, which reads its store, and its `adder_t`,
named by the producer's position in the directory list. -/
structure Producer where
  index : Nat
  store : Db

/-- `ordered_producers`: its entries in iteration order, each a hash and a producer. -/
abbrev Queue := List (Bytes × Producer)

/-- `ordered_producers.insert(e)`: as `std::multimap::insert`, after every entry whose key is not
greater than `e`'s. -/
def insertQueue (e : Bytes × Producer) : Queue → Queue
  | [] => [e]
  | e' :: rest => if e.1 < e'.1 then e :: e' :: rest else e' :: insertQueue e rest

/-- The `for` loop that opens the producers from position `i` on: a producer with a first hash
is enqueued under it, an empty one is closed. -/
def openProducers : Nat → List Db → Queue → Queue
  | _, [], q => q
  | i, db :: dbs, q =>
    match findBegin db with
    | (true, H) => openProducers (i + 1) dbs (insertQueue (H, ⟨i, db⟩) q)
    | (false, _) => openProducers (i + 1) dbs q

/-- One turn of the `while` loop on its first entry `(H, p)`, after `adder->add(H)`:
`hash_next(H)` on the producer, `erase` of the entry, and `insert` of the producer under its
next hash if it has one. -/
def mergeStep (H : Bytes) (p : Producer) (rest : Queue) : Except Fault Queue :=
  match findNext p.store H with
  | .error f => .error f
  | .ok (true, next) => .ok (insertQueue (next, p) rest)
  | .ok (false, _) => .ok rest

/-- The `while` loop: the adder calls it makes, each as the producer's position and the hash;
`none` if `fuel` turns are not enough. -/
def mergeLoop : Nat → Queue → Option (Except Fault (List (Nat × Bytes)))
  | _, [] => some (.ok [])
  | 0, _ :: _ => none
  | fuel + 1, (H, p) :: rest =>
    match mergeStep H p rest with
    | .error f => some (.error f)
    | .ok q => (mergeLoop fuel q).map (Except.map ((p.index, H) :: ·))

/-- `add_multiple` over the producers' stores, in the order of the directory list. -/
def addMultiple (producers : List Db) (fuel : Nat) : Option (Except Fault (List (Nat × Bytes))) :=
  mergeLoop fuel (openProducers 0 producers [])

/-- The states of the `while` loop: `ordered_producers`, and the adder calls made so far. -/
inductive LoopReach (producers : List Db) : Queue → List (Nat × Bytes) → Prop
  | start : LoopReach producers (openProducers 0 producers []) []
  | step {H : Bytes} {p : Producer} {rest q : Queue} {calls : List (Nat × Bytes)} :
      LoopReach producers ((H, p) :: rest) calls → mergeStep H p rest = .ok q →
      LoopReach producers q (calls ++ [(p.index, H)])

/-! ## The multimap -/

theorem perm_insertQueue (e : Bytes × Producer) (q : Queue) : (insertQueue e q).Perm (e :: q) := by
  induction q with
  | nil => rfl
  | cons e' rest ih =>
    unfold insertQueue
    split_ifs
    · rfl
    · exact (ih.cons e').trans (List.Perm.swap e e' rest)

theorem sorted_insertQueue (e : Bytes × Producer) {q : Queue} (hq : (q.map Prod.fst).Sorted (· ≤ ·)) :
    ((insertQueue e q).map Prod.fst).Sorted (· ≤ ·) := by
  induction q with
  | nil => simp [insertQueue]
  | cons e' rest ih =>
    rw [List.map_cons, List.sorted_cons] at hq
    unfold insertQueue
    split_ifs with hlt
    · exact List.sorted_cons.2 ⟨fun b hb => (List.mem_cons.1 hb).elim (· ▸ hlt.le)
        fun hb => hlt.le.trans (hq.1 b hb), List.sorted_cons.2 hq⟩
    · refine List.sorted_cons.2 ⟨fun b hb => ?_, ih hq.2⟩
      obtain ⟨x, hx, rfl⟩ := List.mem_map.1 hb
      rcases List.mem_cons.1 ((perm_insertQueue e rest).subset hx) with rfl | hx
      · exact le_of_not_lt hlt
      · exact hq.1 _ (List.mem_map_of_mem _ hx)

/-- A relation that holds of the multimap's entries in order holds of them after an insert,
when the new entry is related after every entry with a key not above its own and before every
entry with a greater key. -/
theorem pairwise_insertQueue {R : Bytes × Producer → Bytes × Producer → Prop} (e : Bytes × Producer)
    {q : Queue} (hs : (q.map Prod.fst).Sorted (· ≤ ·)) (hq : q.Pairwise R)
    (hle : ∀ e' ∈ q, e'.1 ≤ e.1 → R e' e) (hlt : ∀ e' ∈ q, e.1 < e'.1 → R e e') :
    (insertQueue e q).Pairwise R := by
  induction q with
  | nil => exact List.pairwise_singleton R e
  | cons e' rest ih =>
    rw [List.map_cons, List.sorted_cons] at hs
    rw [List.pairwise_cons] at hq
    unfold insertQueue
    split_ifs with h
    · refine List.Pairwise.cons (fun x hx => hlt x hx ?_) (.cons hq.1 hq.2)
      rcases List.mem_cons.1 hx with rfl | hx
      · exact h
      · exact lt_of_lt_of_le h (hs.1 _ (List.mem_map_of_mem _ hx))
    · refine List.Pairwise.cons (fun x hx => ?_) (ih hs.2 hq.2 (fun x hx => hle x (.tail _ hx))
        fun x hx => hlt x (.tail _ hx))
      rcases List.mem_cons.1 ((perm_insertQueue e rest).subset hx) with rfl | hx
      · exact hle e' (List.mem_cons_self _ _) (le_of_not_lt h)
      · exact hq.1 x hx

/-- A list of at most one element is fixed by its permutations. -/
theorem eq_toList_of_perm {α : Type} {l : List α} {o : Option α} (h : l.Perm o.toList) :
    l = o.toList := by
  cases o with
  | none => exact h.eq_nil
  | some a => exact List.perm_singleton.1 h

/-! ## Keys of a store -/

/-- In a strictly sorted list, the elements from `H` on are the ones not below it. -/
theorem filter_le_of_split {keys pre post : List Bytes} {H : Bytes} (hs : keys.Sorted (· < ·))
    (hk : keys = pre ++ H :: post) : keys.filter (H ≤ ·) = H :: post := by
  subst hk
  obtain ⟨-, hpost, hlt⟩ := List.pairwise_append.1 hs
  rw [List.filter_append, List.filter_eq_nil_iff.2 fun a ha => by
      simpa using hlt a ha H (List.mem_cons_self _ _),
    List.filter_eq_self.2 fun b hb => by
      rcases List.mem_cons.1 hb with rfl | hb
      · simp
      · simpa using (List.sorted_cons.1 hpost).1 b hb |>.le]
  rfl

/-- The hashes after `H` in a store are above it. -/
theorem lt_of_split {keys pre post : List Bytes} {H : Bytes} (hs : keys.Sorted (· < ·))
    (hk : keys = pre ++ H :: post) : ∀ b ∈ post, H < b :=
  (List.sorted_cons.1 (List.pairwise_append.1 (hk ▸ hs)).2.1).1

/-- In a strictly sorted list, the elements up to `H` are those before it, then `H`. -/
theorem filter_ge_of_split {keys pre post : List Bytes} {H : Bytes} (hs : keys.Sorted (· < ·))
    (hk : keys = pre ++ H :: post) : keys.filter (· ≤ H) = pre ++ [H] := by
  subst hk
  obtain ⟨-, hpost, hlt⟩ := List.pairwise_append.1 hs
  rw [List.filter_append, List.filter_eq_self.2 fun a ha => by
      simpa using (hlt a ha H (List.mem_cons_self _ _)).le,
    List.filter_cons_of_pos (by simp), List.filter_eq_nil_iff.2 fun b hb => by
      simpa using (List.sorted_cons.1 hpost).1 b hb]

/-! ## What the loop owes -/

/-- The adder calls a producer entered under `H` still owes: its store's hashes from `H` on. -/
def owed (e : Bytes × Producer) : List (Nat × Bytes) :=
  (e.2.store.keys.filter (e.1 ≤ ·)).map (e.2.index, ·)

/-- Every adder call of the producers from position `i` on: each producer's hashes in order. -/
def allCalls : Nat → List Db → List (Nat × Bytes)
  | _, [] => []
  | i, db :: dbs => db.keys.map (i, ·) ++ allCalls (i + 1) dbs

/-- The entries the opening loop adds for the producers from position `i` on. -/
def firstEntries : Nat → List Db → Queue
  | _, [] => []
  | i, db :: dbs => db.keys.head?.toList.map (·, ⟨i, db⟩) ++ firstEntries (i + 1) dbs

theorem owed_of_split {H : Bytes} {p : Producer} {pre post : List Bytes}
    (hk : p.store.keys = pre ++ H :: post) : owed (H, p) = (H :: post).map (p.index, ·) := by
  show (p.store.keys.filter (H ≤ ·)).map (p.index, ·) = _
  rw [filter_le_of_split (by exact p.store.keys_sorted) hk]

theorem map_snd_allCalls : ∀ (i : Nat) (dbs : List Db),
    (allCalls i dbs).map Prod.snd = dbs.flatMap Db.keys
  | _, [] => rfl
  | i, db :: dbs => by simp [allCalls, Function.comp, map_snd_allCalls (i + 1) dbs]

theorem index_of_mem_allCalls : ∀ {i : Nat} {dbs : List Db} {c : Nat × Bytes},
    c ∈ allCalls i dbs → i ≤ c.1 ∧ c.1 < i + dbs.length
  | _, [], _, hc => by cases hc
  | i, db :: dbs, c, hc => by
    rcases List.mem_append.1 hc with hc | hc
    · obtain ⟨H, -, rfl⟩ := List.mem_map.1 hc
      simp
    · have := index_of_mem_allCalls hc
      simp only [List.length_cons]
      omega

/-- No call is owed twice: a producer's hashes are distinct, and its calls carry its position. -/
theorem nodup_allCalls : ∀ (i : Nat) (dbs : List Db), (allCalls i dbs).Nodup
  | _, [] => List.nodup_nil
  | i, db :: dbs => by
    refine List.nodup_append.2 ⟨db.keys_sorted.nodup.map fun _ _ h => (Prod.mk.inj h).2,
      nodup_allCalls (i + 1) dbs, fun c hc hc' => ?_⟩
    obtain ⟨H, -, rfl⟩ := List.mem_map.1 hc
    have := (index_of_mem_allCalls hc').1
    simp at this

theorem perm_openProducers : ∀ (i : Nat) (dbs : List Db) (q : Queue),
    (openProducers i dbs q).Perm (q ++ firstEntries i dbs)
  | _, [], q => by simp [openProducers, firstEntries]
  | i, db :: dbs, q => by
    simp only [openProducers, findBegin, Db.first, firstEntries]
    cases db.keys with
    | nil => simpa using perm_openProducers (i + 1) dbs q
    | cons H t =>
      refine (perm_openProducers (i + 1) dbs _).trans ?_
      simpa using ((perm_insertQueue _ q).append_right _).trans List.perm_middle.symm

theorem sorted_openProducers : ∀ (i : Nat) (dbs : List Db) {q : Queue},
    (q.map Prod.fst).Sorted (· ≤ ·) → ((openProducers i dbs q).map Prod.fst).Sorted (· ≤ ·)
  | _, [], _, hq => hq
  | i, db :: dbs, q, hq => by
    simp only [openProducers, findBegin, Db.first]
    cases db.keys with
    | nil => exact sorted_openProducers (i + 1) dbs hq
    | cons H t => exact sorted_openProducers (i + 1) dbs (sorted_insertQueue _ hq)

/-- The opening loop enqueues producers in directory order, each after the equal keys already
there: the multimap is in order of key, then position. -/
theorem pairwise_openProducers : ∀ (i : Nat) (dbs : List Db) {q : Queue},
    (q.map Prod.fst).Sorted (· ≤ ·) → (∀ e ∈ q, e.2.index < i) →
    q.Pairwise (fun e e' => e.1 < e'.1 ∨ e.1 = e'.1 ∧ e.2.index < e'.2.index) →
    (openProducers i dbs q).Pairwise (fun e e' => e.1 < e'.1 ∨ e.1 = e'.1 ∧ e.2.index < e'.2.index)
  | _, [], _, _, _, hq => hq
  | i, db :: dbs, q, hs, hi, hq => by
    simp only [openProducers, findBegin, Db.first]
    cases db.keys with
    | nil => exact pairwise_openProducers (i + 1) dbs hs (fun e he => by have := hi e he; omega) hq
    | cons H t =>
      refine pairwise_openProducers (i + 1) dbs (sorted_insertQueue _ hs) (fun e he => ?_)
        (pairwise_insertQueue _ hs hq (fun e' he' h => ?_) fun e' _ h => .inl h)
      · rcases List.mem_cons.1 ((perm_insertQueue _ q).subset he) with rfl | he
        · exact Nat.lt_succ_self i
        · exact Nat.lt_succ_of_lt (hi e he)
      · exact (lt_or_eq_of_le h).imp_right fun h => ⟨h, hi e' he'⟩

theorem flatMap_owed_firstEntries : ∀ (i : Nat) (dbs : List Db),
    (firstEntries i dbs).flatMap owed = allCalls i dbs
  | _, [] => rfl
  | i, db :: dbs => by
    rw [firstEntries, List.flatMap_append, allCalls, flatMap_owed_firstEntries (i + 1) dbs]
    congr 1
    cases hk : db.keys with
    | nil => rfl
    | cons H t =>
      simpa using owed_of_split (show (⟨i, db⟩ : Producer).store.keys = [] ++ H :: t from hk)

theorem mem_firstEntries : ∀ {i : Nat} {dbs : List Db} {e : Bytes × Producer},
    e ∈ firstEntries i dbs → i ≤ e.2.index ∧ dbs[e.2.index - i]? = some e.2.store
  | _, [], _, he => by cases he
  | i, db :: dbs, e, he => by
    rcases List.mem_append.1 he with he | he
    · obtain ⟨H, -, rfl⟩ := List.mem_map.1 he
      simp
    · obtain ⟨hi, hs⟩ := mem_firstEntries he
      refine ⟨by omega, ?_⟩
      rwa [show e.2.index - i = e.2.index - (i + 1) + 1 by omega, List.getElem?_cons_succ]

theorem filter_firstEntries : ∀ (i : Nat) (dbs : List Db) (j : Nat) (db : Db), dbs[j]? = some db →
    ((firstEntries i dbs).filter (·.2.index = i + j)).map Prod.fst = db.keys.head?.toList
  | _, [], _, _, h => by cases h
  | i, db' :: dbs, j, db, h => by
    rw [firstEntries, List.filter_append, List.map_append]
    cases j with
    | zero =>
      obtain rfl : db' = db := by simpa using h
      have hnil : (firstEntries (i + 1) dbs).filter (·.2.index = i + 0) = [] :=
        List.filter_eq_nil_iff.2 fun e he => by
          have := (mem_firstEntries he).1
          simp only [decide_eq_true_eq]
          omega
      rw [hnil]
      cases db'.keys.head? <;> simp
    | succ j =>
      rw [List.getElem?_cons_succ] at h
      rw [show i + (j + 1) = i + 1 + j by omega, filter_firstEntries (i + 1) dbs j db h]
      cases db'.keys.head? <;> simp [show i ≠ i + 1 + j by omega]

/-! ## The loop invariant -/

/-- What holds of every state of the loop over `producers`. -/
structure MergeInv (producers : List Db) (q : Queue) (calls : List (Nat × Bytes)) : Prop where
  /-- The hashes added from each producer are the first hashes of its store, in order, and the
  multimap holds one entry for it, under its next hash, if it has one left, and none otherwise. -/
  producer : ∀ i db, producers[i]? = some db → ∃ pre post, db.keys = pre ++ post ∧
    (calls.filter (·.1 = i)).map Prod.snd = pre ∧
    (q.filter (·.2.index = i)).map Prod.fst = post.head?.toList
  /-- Each entry holds its producer's store. -/
  store : ∀ e ∈ q, producers[e.2.index]? = some e.2.store
  /-- The entries are in key order. -/
  sorted : (q.map Prod.fst).Sorted (· ≤ ·)
  /-- The hashes added so far are in order, and none is above a key of the multimap. -/
  calls_sorted : (calls.map Prod.snd).Sorted (· ≤ ·)
  calls_le : ∀ c ∈ calls, ∀ e ∈ q, c.2 ≤ e.1
  /-- The calls made and the calls the entries still owe are all the calls, each once. -/
  accounted : (calls ++ q.flatMap owed).Perm (allCalls 0 producers)

section Inv

variable {producers : List Db}

theorem mergeInv_start (producers : List Db) :
    MergeInv producers (openProducers 0 producers []) [] := by
  have hperm := perm_openProducers 0 producers []
  rw [List.nil_append] at hperm
  refine ⟨fun i db hi => ⟨[], db.keys, rfl, rfl, ?_⟩, fun e he => ?_,
    sorted_openProducers 0 producers List.sorted_nil, List.sorted_nil, fun c h => absurd h (List.not_mem_nil c), ?_⟩
  · refine eq_toList_of_perm (((hperm.filter _).map _).trans ?_)
    rw [← Nat.zero_add i, filter_firstEntries 0 producers i db hi]
  · simpa using (mem_firstEntries (hperm.subset he)).2
  · rw [List.nil_append, ← flatMap_owed_firstEntries]
    exact hperm.flatMap_right owed

/-- The first entry holds a hash of its producer's store, after the hashes added from it, and
no other entry is for that producer. -/
theorem MergeInv.head (hne : ∀ db ∈ producers, ∀ k ∈ db.keys, k ≠ []) {H : Bytes} {p : Producer}
    {rest : Queue} {calls : List (Nat × Bytes)} (hi : MergeInv producers ((H, p) :: rest) calls) :
    producers[p.index]? = some p.store ∧ H ≠ [] ∧ ∃ pre post, p.store.keys = pre ++ H :: post ∧
      (calls.filter (·.1 = p.index)).map Prod.snd = pre ∧ rest.filter (·.2.index = p.index) = [] := by
  have hs := hi.store _ (List.mem_cons_self _ _)
  obtain ⟨pre, post, hk, hc, hq⟩ := hi.producer _ _ hs
  rw [List.filter_cons_of_pos (by simp), List.map_cons] at hq
  cases post with
  | nil => cases hq
  | cons H' post =>
    simp only [List.head?_cons, Option.toList_some, List.cons.injEq, List.map_eq_nil_iff] at hq
    rw [← hq.1] at hk
    exact ⟨hs, hne _ (List.mem_iff_getElem?.2 ⟨_, hs⟩) H (by simp [hk]), pre, post, hk, hc, hq.2⟩

/-- A turn on a hash of the store with the hashes `post` after it leaves the rest of the
multimap, with the producer under the first of `post` if there is one, in key order. -/
theorem mergeStep_of_split {H : Bytes} {p : Producer} (rest : Queue) {pre post : List Bytes}
    (hH : H ≠ []) (hk : p.store.keys = pre ++ H :: post) :
    ∃ q, mergeStep H p rest = .ok q ∧ q.Perm (post.head?.toList.map (·, p) ++ rest) ∧
      ((rest.map Prod.fst).Sorted (· ≤ ·) → (q.map Prod.fst).Sorted (· ≤ ·)) := by
  rw [mergeStep, findNext_of_mem hH hk]
  cases post with
  | nil => exact ⟨rest, rfl, List.Perm.refl _, id⟩
  | cons next post => exact ⟨_, rfl, perm_insertQueue _ _, sorted_insertQueue _⟩

/-- After a turn, the producer's own entry is under its next hash, if it has one, and every
other producer keeps the entries it had in the rest. -/
theorem filter_requeue {p : Producer} {rest q : Queue} {post : List Bytes}
    (hperm : q.Perm (post.head?.toList.map (·, p) ++ rest)) (j : Nat) :
    ((q.filter (·.2.index = j)).map Prod.fst).Perm
      ((if p.index = j then post.head?.toList else []) ++
        (rest.filter (·.2.index = j)).map Prod.fst) := by
  refine ((hperm.filter _).map _).trans ?_
  rw [List.filter_append, List.map_append]
  refine List.Perm.append_right _ ?_
  by_cases hj : p.index = j <;> cases post.head? <;> simp [hj]

/-- One turn keeps the invariant. -/
theorem MergeInv.step (hne : ∀ db ∈ producers, ∀ k ∈ db.keys, k ≠ []) {H : Bytes} {p : Producer}
    {rest q : Queue} {calls : List (Nat × Bytes)} (hi : MergeInv producers ((H, p) :: rest) calls)
    (hq : mergeStep H p rest = .ok q) : MergeInv producers q (calls ++ [(p.index, H)]) := by
  obtain ⟨hs, hH, pre, post, hk, hc, hr⟩ := hi.head hne
  obtain ⟨q', hq', hperm, hsort⟩ := mergeStep_of_split rest hH hk
  obtain rfl : q = q' := Except.ok.inj (hq.symm.trans hq')
  have hlt := lt_of_split (by exact p.store.keys_sorted) hk
  have hrest : (∀ b ∈ rest.map Prod.fst, H ≤ b) ∧ (rest.map Prod.fst).Sorted (· ≤ ·) :=
    List.sorted_cons.1 hi.sorted
  -- every entry after the turn is one of the rest, or the producer under a hash above `H`
  have hmem : ∀ e ∈ q, e ∈ rest ∨ e.2 = p ∧ H < e.1 := by
    intro e he
    rcases List.mem_append.1 (hperm.subset he) with he | he
    · obtain ⟨b, hb, rfl⟩ := List.mem_map.1 he
      exact .inr ⟨rfl, hlt b (List.mem_of_mem_head? (Option.mem_toList.1 hb))⟩
    · exact .inl he
  refine ⟨fun j db hj => ?_, fun e he => ?_, hsort hrest.2, ?_, fun c hc' e he => ?_, ?_⟩
  · by_cases hjp : p.index = j
    · subst hjp
      obtain rfl : db = p.store := Option.some.inj (hj.symm.trans hs)
      refine ⟨pre ++ [H], post, by simp [hk], by simp [List.filter_append, hc],
        eq_toList_of_perm ?_⟩
      simpa [hr] using filter_requeue hperm p.index
    · obtain ⟨pre', post', hk', hc', hq'⟩ := hi.producer j db hj
      refine ⟨pre', post', hk', by simp [List.filter_append, hjp, hc'], eq_toList_of_perm ?_⟩
      simpa [hjp, ← hq'] using filter_requeue hperm j
  · rcases hmem e he with he | ⟨he, -⟩
    · exact hi.store e (List.mem_cons_of_mem _ he)
    · rw [he]; exact hs
  · rw [List.map_append, List.Sorted, List.pairwise_append]
    exact ⟨hi.calls_sorted, List.sorted_singleton _, fun a ha b hb => by
      obtain ⟨c, hc', rfl⟩ := List.mem_map.1 ha
      obtain rfl : b = H := by simpa using hb
      exact hi.calls_le c hc' _ (List.mem_cons_self _ _)⟩
  · have hcH : c.2 ≤ H := by
      rcases List.mem_append.1 hc' with hc' | hc'
      · exact hi.calls_le c hc' _ (List.mem_cons_self _ _)
      · simp [List.mem_singleton.1 hc']
    rcases hmem e he with he | ⟨-, he⟩
    · exact hcH.trans (hrest.1 _ (List.mem_map_of_mem _ he))
    · exact hcH.trans he.le
  · refine List.Perm.trans ?_ hi.accounted
    rw [List.flatMap_cons, owed_of_split hk, List.append_assoc]
    refine List.Perm.append_left calls ?_
    refine ((hperm.flatMap_right owed).append_left _).trans ?_
    rw [List.flatMap_append, List.map_cons, List.singleton_append, List.cons_append]
    refine List.Perm.cons _ (List.Perm.append_right _ ?_)
    cases post with
    | nil => rfl
    | cons next post =>
      have hnext := owed_of_split (show p.store.keys = (pre ++ [H]) ++ next :: post by simp [hk])
      simp [hnext]

/-- Every state of the loop keeps the invariant. -/
theorem LoopReach.inv (hne : ∀ db ∈ producers, ∀ k ∈ db.keys, k ≠ []) {q : Queue}
    {calls : List (Nat × Bytes)} (h : LoopReach producers q calls) : MergeInv producers q calls := by
  induction h with
  | start => exact mergeInv_start producers
  | step _ hq ih => exact ih.step hne hq

/-- More turns give the same outcome. -/
theorem mergeLoop_mono : ∀ {fuel fuel' : Nat} {q : Queue} {r : Except Fault (List (Nat × Bytes))},
    mergeLoop fuel q = some r → fuel ≤ fuel' → mergeLoop fuel' q = some r
  | fuel, fuel', [], r, h, _ => by cases fuel <;> cases fuel' <;> exact h
  | 0, _, _ :: _, _, h, _ => by cases h
  | _ + 1, 0, _ :: _, _, _, hf => absurd hf (by omega)
  | fuel + 1, fuel' + 1, (H, p) :: rest, r, h, hf => by
    cases hs : mergeStep H p rest with
    | error f => simpa only [mergeLoop, hs] using h
    | ok q =>
      simp only [mergeLoop, hs] at h ⊢
      obtain ⟨r', hr', rfl⟩ := Option.map_eq_some'.1 h
      rw [mergeLoop_mono hr' (by omega)]
      rfl

/-- From every state of the loop, with a turn for each call still owed, the loop ends without a
fault, in a state it reaches. -/
theorem mergeLoop_run (hne : ∀ db ∈ producers, ∀ k ∈ db.keys, k ≠ []) :
    ∀ (fuel : Nat) (q : Queue) (calls : List (Nat × Bytes)), LoopReach producers q calls →
      (q.flatMap owed).length ≤ fuel →
      ∃ rest, mergeLoop fuel q = some (.ok rest) ∧ LoopReach producers [] (calls ++ rest)
  | fuel, [], calls, h, _ => ⟨[], by cases fuel <;> rfl, by simpa using h⟩
  | fuel, (H, p) :: rest, calls, h, hf => by
    obtain ⟨-, hH, pre, post, hk, -, -⟩ := (h.inv hne).head hne
    obtain ⟨q, hq, -⟩ := mergeStep_of_split rest hH hk
    have h' := h.step hq
    -- the turn pays one owed call
    have hlen := (h'.inv hne).accounted.length_eq.trans (h.inv hne).accounted.length_eq.symm
    simp only [List.length_append, List.length_singleton, List.flatMap_cons,
      owed_of_split hk, List.length_map, List.length_cons] at hlen hf
    cases fuel with
    | zero => omega
    | succ fuel =>
      obtain ⟨r, hr, hreach⟩ := mergeLoop_run hne fuel _ _ h' (by omega)
      refine ⟨(p.index, H) :: r, ?_, by simpa using hreach⟩
      simp only [mergeLoop, hq, hr]
      rfl

end Inv

/-! ## The merge on reachable producers -/

/-- On reachable producers no hash is empty. -/
theorem keys_ne_nil_of_reachable {producers : List Db}
    (h : ∀ db ∈ producers, ∃ cfg, Reachable cfg db) :
    ∀ db ∈ producers, ∀ k ∈ db.keys, k ≠ [] := fun db hdb =>
  let ⟨_, hr⟩ := h db hdb
  hr.keys_ne_nil

/-- With a turn for each hash of the producers, `add_multiple` ends without a fault, in a state
of the loop with the multimap empty. -/
theorem addMultiple_run {producers : List Db} (hne : ∀ db ∈ producers, ∀ k ∈ db.keys, k ≠ []) :
    ∃ calls, (∀ fuel, (producers.flatMap Db.keys).length ≤ fuel →
        addMultiple producers fuel = some (.ok calls)) ∧ LoopReach producers [] calls := by
  have hfuel : ((openProducers 0 producers []).flatMap owed).length =
      (producers.flatMap Db.keys).length := by
    rw [← map_snd_allCalls 0, List.length_map, ← (mergeInv_start producers).accounted.length_eq,
      List.nil_append]
  obtain ⟨calls, hrun, hend⟩ := mergeLoop_run hne _ _ _ LoopReach.start (le_refl _)
  exact ⟨calls, fun fuel hf => mergeLoop_mono hrun (hfuel.le.trans hf), by simpa using hend⟩

/-- On producers that are reachable stores, each under its own configuration: every state of
the loop keeps the invariant, with one entry per producer not yet exhausted, under its next
hash; with a turn for each hash of the producers the loop ends without a fault; it calls the
adder of each producer once for each of its hashes and never otherwise; and the hashes it adds
are in nondecreasing order, a merge of the producers' hashes. -/
theorem add_multiple_merges (producers : List Db) (h : ∀ db ∈ producers, ∃ cfg, Reachable cfg db) :
    (∀ q calls, LoopReach producers q calls → MergeInv producers q calls) ∧
    ∃ calls, (∀ fuel, (producers.flatMap Db.keys).length ≤ fuel →
        addMultiple producers fuel = some (.ok calls)) ∧
      (∀ i db, producers[i]? = some db → (calls.filter (·.1 = i)).map Prod.snd = db.keys) ∧
      calls.Nodup ∧ (∀ c ∈ calls, c.1 < producers.length) ∧
      (calls.map Prod.snd).Sorted (· ≤ ·) ∧
      (calls.map Prod.snd).Perm (producers.flatMap Db.keys) := by
  have hne := keys_ne_nil_of_reachable h
  obtain ⟨calls, hrun, hend⟩ := addMultiple_run hne
  have hi := hend.inv hne
  have hperm : calls.Perm (allCalls 0 producers) := by simpa using hi.accounted
  refine ⟨fun q calls h => h.inv hne, calls, hrun, fun i db hdb => ?_,
    hperm.nodup_iff.2 (nodup_allCalls 0 producers),
    fun c hc => by simpa using (index_of_mem_allCalls (hperm.subset hc)).2, ?_, ?_⟩
  · -- the producer is exhausted: its hashes added are all its hashes
    obtain ⟨pre, post, hk, hc, hq⟩ := hi.producer i db hdb
    obtain rfl : post = [] := by cases post <;> simp_all
    rw [hc, hk, List.append_nil]
  · simpa using hi.calls_sorted
  · rw [← map_snd_allCalls 0]
    exact hperm.map _

theorem shared_reachable : ∀ db ∈ [sampleStore, otherStore], ∃ cfg, Reachable cfg db := by
  simp only [List.mem_cons, List.mem_singleton, List.not_mem_nil, or_false]
  rintro db (rfl | rfl)
  exacts [⟨_, sampleStore_reachable⟩, ⟨_, otherStore_reachable⟩]

/-- Two producers sharing the hash `[2]`: `[1]` and `[2]`, then `[2]` and `[3]`. -/
theorem add_multiple_merges_shared :
    (∀ db ∈ [sampleStore, otherStore], ∃ cfg, Reachable cfg db) ∧
    ((∀ q calls, LoopReach [sampleStore, otherStore] q calls →
        MergeInv [sampleStore, otherStore] q calls) ∧
    ∃ calls, (∀ fuel, ([sampleStore, otherStore].flatMap Db.keys).length ≤ fuel →
        addMultiple [sampleStore, otherStore] fuel = some (.ok calls)) ∧
      (∀ i db, [sampleStore, otherStore][i]? = some db →
        (calls.filter (·.1 = i)).map Prod.snd = db.keys) ∧
      calls.Nodup ∧ (∀ c ∈ calls, c.1 < [sampleStore, otherStore].length) ∧
      (calls.map Prod.snd).Sorted (· ≤ ·) ∧
      (calls.map Prod.snd).Perm ([sampleStore, otherStore].flatMap Db.keys)) :=
  ⟨shared_reachable, add_multiple_merges _ shared_reachable⟩

/-! ## Ties

A producer is enqueued under a hash when it is opened, if the hash is its first, and otherwise
right after its adder was called on its previous hash. `std::multimap::insert` puts it after
the entries with an equal key already there, so among the calls on one hash the order is the
order of those inserts. That order is a function of the producers' hashes: rank a call by its
`trail`, the hash and then the producer's hashes before it, latest first, compared
lexicographically, and then by the producer's position. A producer with no hash before `H` was
enqueued at opening and goes first, in directory order; of two with previous hashes `P < P'`,
the one at `P` was enqueued first; of two with the same previous hash, the order of their calls
on it decides.
-/

/-- The hashes of a store up to `H`, latest first. -/
def trail (db : Db) (H : Bytes) : List Bytes := (db.keys.filter (· ≤ H)).reverse

/-- The trail of an adder call, given as the producer's position and the hash. -/
def callTrail (producers : List Db) (c : Nat × Bytes) : List Bytes :=
  trail ((producers[c.1]?).getD Db.empty) c.2

/-- The order in which `add_multiple` makes its adder calls: by trail, then by position. -/
def TieBefore (producers : List Db) (c c' : Nat × Bytes) : Prop :=
  callTrail producers c < callTrail producers c' ∨
    callTrail producers c = callTrail producers c' ∧ c.1 < c'.1

/-- A call's place in the multimap while it is an entry. -/
def entryCall (e : Bytes × Producer) : Nat × Bytes := (e.2.index, e.1)

/-- The hashes a producer has added so far, latest first. -/
def added (calls : List (Nat × Bytes)) (i : Nat) : List Bytes :=
  ((calls.filter (·.1 = i)).map Prod.snd).reverse

/-- What holds of the order of every state of the loop over `producers`. -/
structure TieInv (producers : List Db) (q : Queue) (calls : List (Nat × Bytes)) : Prop where
  /-- The calls made so far are in tie order. -/
  made : calls.Pairwise (TieBefore producers)
  /-- Each of them comes before every call the multimap's entries stand for. -/
  ahead : ∀ c ∈ calls, ∀ e ∈ q, TieBefore producers c (entryCall e)
  /-- The multimap's entries are in tie order. -/
  queue : q.Pairwise fun e e' => TieBefore producers (entryCall e) (entryCall e')

section Tie

variable {producers : List Db}

theorem TieBefore.trans {c c' c'' : Nat × Bytes} (h : TieBefore producers c c')
    (h' : TieBefore producers c' c'') : TieBefore producers c c'' := by
  rcases h with h | ⟨h, hi⟩ <;> rcases h' with h' | ⟨h', hi'⟩
  · exact .inl (lt_trans h h')
  · exact .inl (h' ▸ h)
  · exact .inl (h ▸ h')
  · exact .inr ⟨h.trans h', hi.trans hi'⟩

/-- Two calls whose trails share their first hash compare as the rest of their trails do. -/
theorem tieBefore_of_cons {c c' : Nat × Bytes} {H : Bytes} {t t' : List Bytes}
    (hc : callTrail producers c = H :: t) (hc' : callTrail producers c' = H :: t')
    (h : t < t' ∨ t = t' ∧ c.1 < c'.1) : TieBefore producers c c' := by
  unfold TieBefore
  rw [hc, hc']
  exact h.imp List.Lex.cons_iff.2 fun h => ⟨by rw [h.1], h.2⟩

/-- A call on a smaller hash comes first. -/
theorem tieBefore_of_lt {c c' : Nat × Bytes} {H H' : Bytes} {t t' : List Bytes}
    (hc : callTrail producers c = H :: t) (hc' : callTrail producers c' = H' :: t') (h : H < H') :
    TieBefore producers c c' := by
  unfold TieBefore
  rw [hc, hc']
  exact .inl (List.Lex.rel h)

theorem added_append_self (calls : List (Nat × Bytes)) (i : Nat) (H : Bytes) :
    added (calls ++ [(i, H)]) i = H :: added calls i := by
  simp [added]

/-- The trail of a hash of the store with the hashes `pre` before it. -/
theorem trail_of_split {db : Db} {pre post : List Bytes} {H : Bytes}
    (hk : db.keys = pre ++ H :: post) : trail db H = H :: pre.reverse := by
  rw [trail, filter_ge_of_split (by exact db.keys_sorted) hk, List.reverse_append]
  rfl

theorem callTrail_of_get {i : Nat} {db : Db} (hdb : producers[i]? = some db) (H : Bytes) :
    callTrail producers (i, H) = trail db H := by
  rw [callTrail, hdb, Option.getD_some]

/-- An entry's trail is its hash, then the hashes its producer has added. -/
theorem MergeInv.callTrail_entry {q : Queue} {calls : List (Nat × Bytes)}
    (hi : MergeInv producers q calls) {e : Bytes × Producer} (he : e ∈ q) :
    callTrail producers (entryCall e) = e.1 :: added calls e.2.index := by
  have hs := hi.store e he
  obtain ⟨pre, post, hk, hc, hq⟩ := hi.producer _ _ hs
  have hmem : e.1 ∈ post.head?.toList :=
    hq ▸ List.mem_map_of_mem _ (List.mem_filter.2 ⟨he, by simp⟩)
  cases post with
  | nil => cases hmem
  | cons H post =>
    obtain rfl : e.1 = H := by simpa using hmem
    rw [entryCall, callTrail_of_get hs, trail_of_split hk, added, hc]

/-- A producer's latest call was made, and its trail is the hashes the producer has added. -/
theorem MergeInv.callTrail_latest {q : Queue} {calls : List (Nat × Bytes)}
    (hi : MergeInv producers q calls) {i : Nat} {db : Db} (hdb : producers[i]? = some db)
    {H : Bytes} {t : List Bytes} (hd : added calls i = H :: t) :
    (i, H) ∈ calls ∧ callTrail producers (i, H) = H :: t := by
  obtain ⟨pre, post, hk, hc, -⟩ := hi.producer i db hdb
  rw [added, hc, List.reverse_eq_cons_iff] at hd
  subst hd
  have hH : H ∈ (calls.filter (·.1 = i)).map Prod.snd := by simp [hc]
  refine ⟨by simpa using hH, ?_⟩
  rw [callTrail_of_get hdb, trail_of_split (hk.trans (List.append_assoc _ _ _)),
    List.reverse_reverse]

theorem tieInv_start (producers : List Db) :
    TieInv producers (openProducers 0 producers []) [] := by
  have hi := mergeInv_start producers
  refine ⟨List.Pairwise.nil, fun c h => absurd h (List.not_mem_nil c), ?_⟩
  refine (@pairwise_openProducers 0 producers [] List.sorted_nil
    (fun e h => absurd h (List.not_mem_nil e)) List.Pairwise.nil).imp_of_mem fun he he' h => ?_
  have ht := hi.callTrail_entry he
  have ht' := hi.callTrail_entry he'
  rcases h with h | ⟨h, hlt⟩
  · exact tieBefore_of_lt ht ht' h
  · exact tieBefore_of_cons ht (h ▸ ht') (.inr ⟨rfl, hlt⟩)

/-- One turn keeps the order: the call made was first in the multimap, and the producer is
enqueued again after the entries that came before it under its next hash. -/
theorem TieInv.step (hne : ∀ db ∈ producers, ∀ k ∈ db.keys, k ≠ []) {H : Bytes} {p : Producer}
    {rest q : Queue} {calls : List (Nat × Bytes)} (hi : MergeInv producers ((H, p) :: rest) calls)
    (ht : TieInv producers ((H, p) :: rest) calls) (hq : mergeStep H p rest = .ok q) :
    TieInv producers q (calls ++ [(p.index, H)]) := by
  obtain ⟨-, hH, pre, post, hk, -, -⟩ := hi.head hne
  have hi' := hi.step hne hq
  have hhead : callTrail producers (p.index, H) = H :: added calls p.index :=
    hi.callTrail_entry (List.mem_cons_self _ _)
  have hrest := List.pairwise_cons.1 ht.queue
  -- what the turn leaves in the multimap is in order, and after the call just made
  have hq' : q.Pairwise (fun e e' => TieBefore producers (entryCall e) (entryCall e')) ∧
      ∀ e ∈ q, TieBefore producers (p.index, H) (entryCall e) := by
    rw [mergeStep, findNext_of_mem hH hk] at hq
    cases post with
    | nil =>
      cases hq
      exact ⟨hrest.2, hrest.1⟩
    | cons next post =>
      cases hq
      -- the producer under its next hash: that hash, then the trail of the call just made
      have hnext :
          callTrail producers (p.index, next) = next :: callTrail producers (p.index, H) := by
        rw [hhead, ← added_append_self]
        exact hi'.callTrail_entry
          ((perm_insertQueue (next, p) rest).symm.subset (List.mem_cons_self _ _))
      refine ⟨pairwise_insertQueue _ (List.sorted_cons.1 hi.sorted).2 hrest.2 (fun e he hle => ?_)
        fun e he h => tieBefore_of_lt hnext (hi.callTrail_entry (.tail _ he)) h, fun e he => ?_⟩
      · have htrail := hi.callTrail_entry (.tail _ he)
        rcases lt_or_eq_of_le hle with h | h
        · exact tieBefore_of_lt htrail hnext h
        -- a tie under `next`: the other producer's latest call came before the call just made
        refine tieBefore_of_cons (h ▸ htrail) hnext ?_
        cases hd : added calls e.2.index with
        | nil => exact .inl (hhead ▸ List.Lex.nil)
        | cons last t =>
          obtain ⟨hmem, hlast⟩ := hi.callTrail_latest (hi.store e (.tail _ he)) hd
          exact hlast ▸ ht.ahead _ hmem _ (List.mem_cons_self _ _)
      · rcases List.mem_cons.1 ((perm_insertQueue _ rest).subset he) with rfl | he
        · exact tieBefore_of_lt hhead hnext
            (lt_of_split (by exact p.store.keys_sorted) hk next (List.mem_cons_self _ _))
        · exact hrest.1 e he
  refine ⟨List.pairwise_append.2 ⟨ht.made, List.pairwise_singleton _ _, fun c hc c' hc' => ?_⟩,
    fun c hc e he => ?_, hq'.1⟩
  · rw [List.mem_singleton.1 hc']
    exact ht.ahead c hc _ (List.mem_cons_self _ _)
  · rcases List.mem_append.1 hc with hc | hc
    · exact (ht.ahead c hc _ (List.mem_cons_self _ _)).trans (hq'.2 e he)
    · exact List.mem_singleton.1 hc ▸ hq'.2 e he

/-- Every state of the loop keeps the order. -/
theorem LoopReach.tie (hne : ∀ db ∈ producers, ∀ k ∈ db.keys, k ≠ []) {q : Queue}
    {calls : List (Nat × Bytes)} (h : LoopReach producers q calls) : TieInv producers q calls := by
  induction h with
  | start => exact tieInv_start producers
  | step hr hq ih => exact ih.step hne (hr.inv hne) hq

end Tie

/-- On producers that are reachable stores, with a turn for each of their hashes,
`add_multiple` ends without a fault, and its adder calls are in tie order: by trail, then by
producer position. -/
theorem add_multiple_ties_by_queue_order (producers : List Db)
    (h : ∀ db ∈ producers, ∃ cfg, Reachable cfg db) :
    ∃ calls, (∀ fuel, (producers.flatMap Db.keys).length ≤ fuel →
        addMultiple producers fuel = some (.ok calls)) ∧ calls.Pairwise (TieBefore producers) := by
  have hne := keys_ne_nil_of_reachable h
  obtain ⟨calls, hrun, hend⟩ := addMultiple_run hne
  exact ⟨calls, hrun, (hend.tie hne).made⟩

/-- On the two stores sharing `[2]`, the second producer's `[2]` has trail `[[2]]`, the first's
`[[2], [1]]`, and the second's comes first. -/
theorem add_multiple_ties_shared :
    (∀ db ∈ [sampleStore, otherStore], ∃ cfg, Reachable cfg db) ∧
    ∃ calls, (∀ fuel, ([sampleStore, otherStore].flatMap Db.keys).length ≤ fuel →
        addMultiple [sampleStore, otherStore] fuel = some (.ok calls)) ∧
      calls.Pairwise (TieBefore [sampleStore, otherStore]) :=
  ⟨shared_reachable, add_multiple_ties_by_queue_order _ shared_reachable⟩

example : addMultiple [sampleStore, otherStore] 4 =
    some (.ok [(0, [1]), (1, [2]), (0, [2]), (1, [3])]) := by
  rfl


/-- Producers holding `[a, b]` and `[b]`, in that order: the first adds `a` and is enqueued
again under `b`, after the second, so the second adds `b` before the first. -/
theorem add_multiple_tie_order (db0 db1 : Db) (a b : Bytes) (h0 : db0.keys = [a, b])
    (h1 : db1.keys = [b]) (ha : a ≠ []) (fuel : Nat) (hf : 3 ≤ fuel) :
    addMultiple [db0, db1] fuel = some (.ok [(0, a), (1, b), (0, b)]) := by
  have hab : a < b := by
    have : db0.keys.Sorted (· < ·) := db0.keys_sorted
    rw [h0] at this
    simpa using this
  have hb : b ≠ [] := by
    rintro rfl
    exact List.Lex.not_nil_right _ _ hab
  have hn0a : findNext db0 a = .ok (true, b) :=
    findNext_of_mem ha (show db0.keys = [] ++ a :: [b] from h0)
  have hn0b : findNext db0 b = .ok (false, []) :=
    findNext_of_mem hb (show db0.keys = [a] ++ b :: [] from h0)
  have hn1b : findNext db1 b = .ok (false, []) :=
    findNext_of_mem hb (show db1.keys = [] ++ b :: [] from h1)
  obtain ⟨fuel, rfl⟩ : ∃ k, fuel = k + 3 := ⟨fuel - 3, by omega⟩
  simp [addMultiple, openProducers, findBegin, Db.first, h0, h1, insertQueue, not_lt_of_lt hab,
    mergeLoop, mergeStep, hn0a, hn0b, hn1b]
  rfl

/-- A store holding the hashes `[1]` and `[2]`. -/
def tieFirst : Db := ⟨[([1], [[0]]), ([2], [[0]])], by decide, by decide, by decide⟩

/-- A store holding the hash `[2]`. -/
def tieSecond : Db := ⟨[([2], [[0]])], by decide, by decide, by decide⟩

/-- The second producer's `[2]` is added before the first's. -/
theorem add_multiple_tie_order_twos :
    tieFirst.keys = [[1], [2]] ∧ tieSecond.keys = [[2]] ∧ ([1] : Bytes) ≠ [] ∧ 3 ≤ 3 ∧
      addMultiple [tieFirst, tieSecond] 3 = some (.ok [(0, [1]), (1, [2]), (0, [2])]) :=
  ⟨rfl, rfl, by decide, le_refl 3, add_multiple_tie_order tieFirst tieSecond [1] [2] rfl rfl (by decide) 3
    (le_refl 3)⟩

end Commands
end HashDb

import HashDb.Basic
import Mathlib.Data.List.Sort

/-!
# An LMDB database with sorted duplicates

The hash data store is one LMDB database opened with `MDB_DUPSORT`. The spec (§4.2) gives
the contract the store relies on: an ordered map from byte keys to several byte data items,
the items of one key delivered in byte-lexicographic order, cursors that can seek a key, step
to the next item or to the next key, count and delete the items of a key, and a put that
reports `MDB_KEYEXIST` for an item already there under `MDB_NODUPDATA`.

`Db` is that contract as data: key groups in increasing key order, each holding its items in
increasing order, and no key without items. The structure carries these three facts, so every
database the model builds is one LMDB could hold. The operations are the cursor calls the
store makes; engine failures (a full map, an oversized item) are not modelled.

Each operation comes with its effect on `Db.dups`, the items of one key, and on no other key;
the store's proofs use only these lemmas.
-/

namespace HashDb
namespace Lmdb

/-- Groups of key and items, in the order LMDB keeps them. -/
abbrev Groups := List (Bytes × List Bytes)

/-- An `MDB_DUPSORT` database: sorted keys, each with its sorted, nonempty items. -/
structure Db where
  groups : Groups
  keys_sorted : (groups.map Prod.fst).Sorted (· < ·)
  dups_sorted : ∀ g ∈ groups, g.2.Sorted (· < ·)
  dups_ne_nil : ∀ g ∈ groups, g.2 ≠ []

/-- The items stored under `key`, in LMDB's order; `[]` when the key is absent. -/
def dupsOf (key : Bytes) : Groups → List Bytes
  | [] => []
  | (k, vs) :: gs => if k = key then vs else dupsOf key gs

/-- `put` into the groups: a new group in key order, or the item in order within its group. -/
def putGroups (key data : Bytes) : Groups → Groups
  | [] => [(key, [data])]
  | (k, vs) :: gs =>
    if key < k then (key, [data]) :: (k, vs) :: gs
    else if k = key then (k, vs.orderedInsert (· ≤ ·) data) :: gs
    else (k, vs) :: putGroups key data gs

/-- `del` from the groups: the item leaves its group, and an emptied group leaves the list. -/
def delGroups (key data : Bytes) : Groups → Groups
  | [] => []
  | (k, vs) :: gs =>
    if k = key then (if vs.erase data = [] then gs else (k, vs.erase data) :: gs)
    else (k, vs) :: delGroups key data gs

/-- What successive `MDB_NEXT` calls return after `MDB_SET_KEY` placed the cursor on the
first item of `key`: the rest of the key's items, then every later key's items. -/
def afterSetKey (key : Bytes) : Groups → List (Bytes × Bytes)
  | [] => []
  | (k, vs) :: gs =>
    if k = key then vs.tail.map (k, ·) ++ gs.flatMap (fun g => g.2.map (g.1, ·))
    else afterSetKey key gs

/-- The key `MDB_NEXT_NODUP` reaches after `MDB_SET_KEY` placed the cursor on `key`. -/
def nextKeyOf (key : Bytes) : Groups → Option Bytes
  | [] => none
  | (k, _) :: gs => if k = key then (gs.head?).map Prod.fst else nextKeyOf key gs

/-! ## Groups -/

section Groups

variable {key data k : Bytes} {gs : Groups}

/-- Inserting an item that is not there keeps a strictly sorted list strictly sorted. -/
theorem sorted_orderedInsert {l : List Bytes} (hs : l.Sorted (· < ·)) (ha : data ∉ l) :
    (l.orderedInsert (· ≤ ·) data).Sorted (· < ·) :=
  (hs.le_of_lt.orderedInsert data _).lt_of_le
    ((List.perm_orderedInsert _ data _).nodup_iff.2 (List.nodup_cons.2 ⟨ha, hs.nodup⟩))

theorem dupsOf_eq_nil_of_lt (h : ∀ k' ∈ gs.map Prod.fst, key < k') : dupsOf key gs = [] := by
  induction gs with
  | nil => rfl
  | cons g gs ih =>
    obtain ⟨k', vs⟩ := g
    simp only [List.map_cons, List.mem_cons, forall_eq_or_imp] at h
    simp [dupsOf, ne_of_gt h.1, ih h.2]

theorem mem_map_fst_putGroups (h : k ∈ (putGroups key data gs).map Prod.fst) :
    k = key ∨ k ∈ gs.map Prod.fst := by
  induction gs with
  | nil => simpa [putGroups] using h
  | cons g gs ih =>
    obtain ⟨k', vs⟩ := g
    simp only [putGroups] at h
    split_ifs at h with h1 h2
    · simpa using h
    · simpa [h2] using h
    · simp only [List.map_cons, List.mem_cons] at h ⊢
      rcases h with h | h
      · exact .inr (.inl h)
      · exact (ih h).imp_right .inr

theorem putGroups_keys_sorted (h : (gs.map Prod.fst).Sorted (· < ·)) :
    ((putGroups key data gs).map Prod.fst).Sorted (· < ·) := by
  induction gs with
  | nil => simp [putGroups]
  | cons g gs ih =>
    obtain ⟨k', vs⟩ := g
    simp only [List.map_cons, List.sorted_cons] at h
    simp only [putGroups]
    split_ifs with h1 h2
    · simp only [List.map_cons, List.sorted_cons, List.mem_cons, forall_eq_or_imp]
      exact ⟨⟨h1, fun b hb => h1.trans (h.1 b hb)⟩, h.1, h.2⟩
    · simpa using h
    · simp only [List.map_cons, List.sorted_cons]
      refine ⟨fun b hb => ?_, ih h.2⟩
      rcases mem_map_fst_putGroups hb with rfl | hb
      · exact lt_of_le_of_ne (not_lt.1 h1) h2
      · exact h.1 b hb

/-- A group of `putGroups` is the new group, the key's group with the item inserted, or an
old group. -/
theorem mem_putGroups {g : Bytes × List Bytes} (h : g ∈ putGroups key data gs) :
    g = (key, [data]) ∨ (g.1 = key ∧ g.2 = (dupsOf key gs).orderedInsert (· ≤ ·) data) ∨ g ∈ gs := by
  induction gs with
  | nil => exact .inl (by simpa [putGroups] using h)
  | cons g' gs ih =>
    obtain ⟨k', vs⟩ := g'
    simp only [putGroups] at h
    split_ifs at h with h1 h2
    · rcases List.mem_cons.1 h with rfl | h
      · exact .inl rfl
      · exact .inr (.inr h)
    · rcases List.mem_cons.1 h with rfl | h
      · exact .inr (.inl ⟨h2, by simp [dupsOf, h2]⟩)
      · exact .inr (.inr (.tail _ h))
    · rcases List.mem_cons.1 h with rfl | h
      · exact .inr (.inr (.head _))
      · rcases ih h with h | ⟨h3, h4⟩ | h
        · exact .inl h
        · exact .inr (.inl ⟨h3, by simp [dupsOf, h2, h4]⟩)
        · exact .inr (.inr (.tail _ h))

theorem dupsOf_mem_groups (h : dupsOf key gs ≠ []) : (key, dupsOf key gs) ∈ gs := by
  induction gs with
  | nil => simp [dupsOf] at h
  | cons g gs ih =>
    obtain ⟨k', vs⟩ := g
    by_cases hk : k' = key
    · subst hk; simp [dupsOf]
    · simp only [dupsOf, hk, if_false] at h ⊢
      exact .tail _ (ih h)

theorem dupsOf_of_mem (hs : (gs.map Prod.fst).Sorted (· < ·)) {vs : List Bytes}
    (h : (key, vs) ∈ gs) : dupsOf key gs = vs := by
  induction gs with
  | nil => simp at h
  | cons g gs ih =>
    obtain ⟨k', vs'⟩ := g
    simp only [List.map_cons, List.sorted_cons] at hs
    rcases List.mem_cons.1 h with h | h
    · cases h; simp [dupsOf]
    · have hk : k' ≠ key := ne_of_lt (hs.1 key (List.mem_map_of_mem Prod.fst h))
      simp [dupsOf, hk, ih hs.2 h]

theorem dupsOf_putGroups (hs : (gs.map Prod.fst).Sorted (· < ·)) (k' : Bytes) :
    dupsOf k' (putGroups key data gs) =
      if k' = key then (dupsOf key gs).orderedInsert (· ≤ ·) data else dupsOf k' gs := by
  induction gs with
  | nil =>
    by_cases h : k' = key
    · subst h; simp [putGroups, dupsOf]
    · simp [putGroups, dupsOf, Ne.symm h, h]
  | cons g gs ih =>
    obtain ⟨k, vs⟩ := g
    simp only [List.map_cons, List.sorted_cons] at hs
    by_cases h1 : key < k
    · have hnil : dupsOf key gs = [] := dupsOf_eq_nil_of_lt fun b hb => h1.trans (hs.1 b hb)
      by_cases h : k' = key
      · subst h; simp [putGroups, h1, dupsOf, ne_of_gt h1, hnil]
      · simp [putGroups, h1, dupsOf, h, Ne.symm h]
    · by_cases h2 : k = key
      · subst h2
        by_cases h : k' = k
        · subst h; simp [putGroups, dupsOf]
        · simp [putGroups, dupsOf, h, Ne.symm h]
      · by_cases h : k' = key
        · subst h; simp [putGroups, h1, h2, dupsOf, ih hs.2]
        · simp [putGroups, h1, h2, dupsOf, h, ih hs.2]

theorem map_fst_delGroups_sublist :
    List.Sublist ((delGroups key data gs).map Prod.fst) (gs.map Prod.fst) := by
  induction gs with
  | nil => simp [delGroups]
  | cons g gs ih =>
    obtain ⟨k', vs⟩ := g
    simp only [delGroups]
    split_ifs
    · exact (List.sublist_cons_self _ _)
    · simp
    · simpa using ih

/-- A group of `delGroups` is an old group or the key's group without the item, and then it
is not empty. -/
theorem mem_delGroups {g : Bytes × List Bytes} (h : g ∈ delGroups key data gs) :
    g ∈ gs ∨ ∃ vs, (g.1, vs) ∈ gs ∧ g.2 = vs.erase data ∧ g.2 ≠ [] := by
  induction gs with
  | nil => simp [delGroups] at h
  | cons g' gs ih =>
    obtain ⟨k', vs⟩ := g'
    simp only [delGroups] at h
    split_ifs at h with h1 h2
    · exact .inl (.tail _ h)
    · rcases List.mem_cons.1 h with rfl | h
      · exact .inr ⟨vs, .head _, rfl, h2⟩
      · exact .inl (.tail _ h)
    · rcases List.mem_cons.1 h with rfl | h
      · exact .inl (.head _)
      · rcases ih h with h | ⟨vs', hm, he, hne⟩
        · exact .inl (.tail _ h)
        · exact .inr ⟨vs', .tail _ hm, he, hne⟩

theorem dupsOf_delGroups (hs : (gs.map Prod.fst).Sorted (· < ·)) (k' : Bytes) :
    dupsOf k' (delGroups key data gs) =
      if k' = key then (dupsOf key gs).erase data else dupsOf k' gs := by
  induction gs with
  | nil => simp [delGroups, dupsOf]
  | cons g gs ih =>
    obtain ⟨k, vs⟩ := g
    simp only [List.map_cons, List.sorted_cons] at hs
    by_cases h1 : k = key
    · subst h1
      have hnil : dupsOf k gs = [] := dupsOf_eq_nil_of_lt hs.1
      by_cases h2 : vs.erase data = []
      · by_cases h : k' = k
        · subst h; simp [delGroups, dupsOf, h2, hnil]
        · simp [delGroups, dupsOf, h2, h, Ne.symm h]
      · by_cases h : k' = k
        · subst h; simp [delGroups, dupsOf, h2]
        · simp [delGroups, dupsOf, h2, h, Ne.symm h]
    · by_cases h : k' = key
      · subst h; simp [delGroups, dupsOf, h1, ih hs.2]
      · simp [delGroups, dupsOf, h1, h, ih hs.2]

/-- After `MDB_SET_KEY` on `key`, `MDB_NEXT` returns the key's other items, then only items of
other keys. -/
theorem afterSetKey_eq (key : Bytes) (hs : (gs.map Prod.fst).Sorted (· < ·)) :
    ∃ rest, afterSetKey key gs = (dupsOf key gs).tail.map (key, ·) ++ rest ∧
      ∀ e ∈ rest, e.1 ≠ key := by
  induction gs with
  | nil => exact ⟨[], by simp [afterSetKey, dupsOf], by simp⟩
  | cons g gs ih =>
    obtain ⟨k, vs⟩ := g
    simp only [List.map_cons, List.sorted_cons] at hs
    by_cases h1 : k = key
    · subst h1
      refine ⟨gs.flatMap (fun g => g.2.map (g.1, ·)), by simp [afterSetKey, dupsOf], ?_⟩
      intro e he
      obtain ⟨g, hg, he⟩ := List.mem_flatMap.1 he
      obtain ⟨v, -, rfl⟩ := List.mem_map.1 he
      exact ne_of_gt (hs.1 g.1 (List.mem_map_of_mem _ hg))
    · simpa [afterSetKey, dupsOf, h1] using ih hs.2

/-- `MDB_NEXT_NODUP` from a key reaches the key after it. -/
theorem nextKeyOf_eq (hs : (gs.map Prod.fst).Sorted (· < ·)) :
    ∀ {pre post : List Bytes}, gs.map Prod.fst = pre ++ key :: post →
      nextKeyOf key gs = post.head? := by
  induction gs with
  | nil => intro pre post h; simp at h
  | cons g gs ih =>
    obtain ⟨k, vs⟩ := g
    simp only [List.map_cons, List.sorted_cons] at hs
    intro pre post h
    cases pre with
    | nil =>
      simp only [List.map_cons, List.nil_append, List.cons.injEq] at h
      obtain ⟨hk, hpost⟩ := h
      simp [nextKeyOf, hk, ← hpost, List.head?_map]
    | cons p pre =>
      simp only [List.map_cons, List.cons_append, List.cons.injEq] at h
      obtain ⟨-, hrest⟩ := h
      have hk : k ≠ key := ne_of_lt (hs.1 key (hrest ▸ by simp))
      simp [nextKeyOf, hk, ih hs.2 hrest]

end Groups

/-! ## The database -/

namespace Db

/-- The database of a fresh environment: no keys. -/
def empty : Db := ⟨[], List.sorted_nil, by simp, by simp⟩

/-- The items of `key`, in LMDB's order; `[]` when the key is absent. -/
def dups (db : Db) (key : Bytes) : List Bytes := dupsOf key db.groups

/-- The keys, in LMDB's order. -/
def keys (db : Db) : List Bytes := db.groups.map Prod.fst

/-- `mdb_cursor_count` on a cursor placed at `key`. -/
def count (db : Db) (key : Bytes) : Nat := (db.dups key).length

/-- The number of data items, every item of every key: the `ms_entries` of `mdb_env_stat` that
`lmdb_helper::size` returns. -/
def size (db : Db) : Nat := (db.groups.flatMap Prod.snd).length

theorem putGroups_dups_sorted (db : Db) {key data : Bytes} (h : data ∉ db.dups key) :
    ∀ g ∈ putGroups key data db.groups, g.2.Sorted (· < ·) := by
  intro g hg
  rcases mem_putGroups hg with rfl | ⟨-, he⟩ | hg
  · exact List.sorted_singleton _
  · have hs : (db.dups key).Sorted (· < ·) := by
      by_cases hn : db.dups key = []
      · rw [hn]; exact List.sorted_nil
      · exact db.dups_sorted _ (dupsOf_mem_groups hn)
    rw [he]
    exact sorted_orderedInsert hs h
  · exact db.dups_sorted g hg

theorem putGroups_dups_ne_nil (db : Db) (key data : Bytes) :
    ∀ g ∈ putGroups key data db.groups, g.2 ≠ [] := by
  intro g hg
  rcases mem_putGroups hg with rfl | ⟨-, he⟩ | hg
  · simp
  · rw [he]; exact List.ne_nil_of_length_pos (by simp [List.orderedInsert_length])
  · exact db.dups_ne_nil g hg

/-- `mdb_put(key, data, MDB_NODUPDATA)`: `none` is `MDB_KEYEXIST`, the item being there. LMDB's
other failures of the put, `MDB_MAP_FULL` and `MDB_BAD_VALSIZE` for an item over `MDB_DUPSORT`'s
511 bytes, are left out. -/
def put (db : Db) (key data : Bytes) : Option Db :=
  if h : data ∈ db.dups key then none
  else some ⟨putGroups key data db.groups, putGroups_keys_sorted db.keys_sorted,
    putGroups_dups_sorted db h, putGroups_dups_ne_nil db key data⟩

/-- `mdb_cursor_del` on a cursor at the item `data` of `key`. -/
def del (db : Db) (key data : Bytes) : Db :=
  ⟨delGroups key data db.groups, db.keys_sorted.sublist map_fst_delGroups_sublist,
    fun g hg => by
      rcases mem_delGroups hg with hg | ⟨vs, hm, he, -⟩
      · exact db.dups_sorted g hg
      · rw [he]; exact (db.dups_sorted _ hm).sublist (List.erase_sublist _ _),
    fun g hg => by
      rcases mem_delGroups hg with hg | ⟨vs, -, -, hne⟩
      · exact db.dups_ne_nil g hg
      · exact hne⟩

/-- `MDB_FIRST`: the first key. -/
def first (db : Db) : Option Bytes := db.keys.head?

/-- `MDB_SET_KEY` on `key`, then `MDB_NEXT_NODUP`: the key after `key`. -/
def nextKey (db : Db) (key : Bytes) : Option Bytes := nextKeyOf key db.groups

/-- `MDB_SET_KEY` on `key`, then `MDB_NEXT` again and again: the items met, with their keys. -/
def afterSetKey (db : Db) (key : Bytes) : List (Bytes × Bytes) := Lmdb.afterSetKey key db.groups

variable {db db' : Db} {key data : Bytes}

@[simp] theorem dups_empty (key : Bytes) : empty.dups key = [] := rfl

theorem put_eq_none_iff : db.put key data = none ↔ data ∈ db.dups key := by
  unfold put; split_ifs with h <;> simp [h]

theorem dups_put (h : db.put key data = some db') :
    db'.dups = Function.update db.dups key ((db.dups key).orderedInsert (· ≤ ·) data) := by
  unfold put at h
  split_ifs at h
  cases h
  funext k
  rw [Function.update_apply]
  exact dupsOf_putGroups db.keys_sorted k

/-- A put of an item that is not there succeeds. -/
theorem put_of_not_mem (db : Db) (key data : Bytes) (h : data ∉ db.dups key) :
    ∃ db', db.put key data = some db' ∧
      db'.dups = Function.update db.dups key ((db.dups key).orderedInsert (· ≤ ·) data) := by
  cases hp : db.put key data with
  | none => exact absurd (put_eq_none_iff.1 hp) h
  | some db' => exact ⟨db', rfl, dups_put hp⟩

theorem dups_del : (db.del key data).dups = Function.update db.dups key ((db.dups key).erase data) := by
  funext k
  rw [Function.update_apply]
  exact dupsOf_delGroups db.keys_sorted k

theorem nextKey_eq {pre post : List Bytes} (h : db.keys = pre ++ key :: post) :
    db.nextKey key = post.head? :=
  nextKeyOf_eq db.keys_sorted h

theorem mem_keys_iff : key ∈ db.keys ↔ db.dups key ≠ [] := by
  constructor
  · intro h
    obtain ⟨g, hg, rfl⟩ := List.mem_map.1 h
    rw [dups, dupsOf_of_mem db.keys_sorted hg]
    exact db.dups_ne_nil g hg
  · intro h
    exact List.mem_map_of_mem _ (dupsOf_mem_groups h)

theorem groups_eq_map_dups (db : Db) : db.groups = db.keys.map fun k => (k, db.dups k) := by
  conv_lhs => rw [← List.map_id db.groups]
  rw [keys, List.map_map]
  refine List.map_congr_left fun g hg => ?_
  rw [Function.comp_apply, dups, dupsOf_of_mem db.keys_sorted hg]
  rfl

/-- A database is determined by the items of each key: LMDB's order fixes the rest. -/
theorem ext_dups (h : ∀ key, db.dups key = db'.dups key) : db = db' := by
  have hkeys : db.keys = db'.keys := by
    refine List.eq_of_perm_of_sorted ?_ db.keys_sorted.le_of_lt db'.keys_sorted.le_of_lt
    have hnd : ∀ d : Db, d.keys.Nodup := fun d => d.keys_sorted.nodup
    rw [List.perm_ext_iff_of_nodup (hnd db) (hnd db')]
    intro k
    rw [mem_keys_iff, mem_keys_iff, h]
  have hgroups : db.groups = db'.groups := by
    rw [groups_eq_map_dups, groups_eq_map_dups, hkeys, funext h]
  cases db; cases db'
  cases hgroups
  rfl

/-- Every key has an item, so a database has none exactly when it has no key. -/
theorem size_eq_zero_iff (db : Db) : db.size = 0 ↔ db.keys = [] := by
  unfold size keys
  cases hg : db.groups with
  | nil => simp
  | cons g gs =>
    have hpos : 0 < g.2.length :=
      List.length_pos.2 (db.dups_ne_nil g (hg ▸ List.mem_cons_self g gs))
    simp only [List.flatMap_cons, List.length_append, List.map_cons, reduceCtorEq, iff_false]
    omega

end Db


end Lmdb
end HashDb

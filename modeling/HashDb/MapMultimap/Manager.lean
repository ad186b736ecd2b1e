import Mathlib.Data.Finset.Basic

/-!
# `map_multimap_manager_t`

The manager that treats a map and a multimap as one store (map_multimap_manager.hpp). A key's
map pay either encodes one source or, through `source_lookup_encoding`, forwards to the
multimap with a count; the bloom filter answers negative lookups without touching the map.

The file uses `map`, `multimap`, `map_replace` and a one-argument `multimap_erase` it does not
define; they are read as `map_manager`, `multimap_manager`, `map_change` and the checked
`erase_range` of the key. The managers it holds are not in src/ and are modelled from how the
tests drive them.

Calls run in `EStateM String (Manager K)`: a `std::runtime_error` is an `.error` that keeps the
state the call had reached, since nothing the call did before the throw is undone.
-/

namespace HashDb
namespace MapMultimap

/-- Modelled from the spec: `source_lookup_encoding` (source_lookup_encoding.hpp is not in
src/). A map pay encodes one source (`get_count` 1) or a count of two or more that forwards to
the multimap (`get_source_lookup_encoding(count)`); counts are `uint32_t`. The manager relies
on one law: a count encoding decodes to its count. -/
structure LookupEncoding where
  getCount : UInt64 → Nat
  getSourceLookupEncoding : Nat → UInt64
  getCount_lt (pay : UInt64) : getCount pay < 2 ^ 32
  getCount_getSourceLookupEncoding (count : Nat) :
    2 ≤ count → count < 2 ^ 32 → getCount (getSourceLookupEncoding count) = count

/-- An encoding with the law: a pay from 2 to `2^32 - 1` is that count, any other pay encodes
one source. -/
def LookupEncoding.plain : LookupEncoding where
  getCount pay := if 2 ≤ pay.toNat ∧ pay.toNat < 2 ^ 32 then pay.toNat else 1
  getSourceLookupEncoding count := UInt64.ofNat count
  getCount_lt pay := by dsimp only; split_ifs with h <;> omega
  getCount_getSourceLookupEncoding count h2 h32 := by
    have hlt : count < UInt64.size := by unfold UInt64.size; omega
    show (if _ then _ else 1) = count
    rw [UInt64.toNat_ofNat_of_lt hlt, if_pos ⟨h2, h32⟩]

/-- What the manager reads of its setup: the lookup encoding, and the bits the bloom filters'
hash functions give each key (none for a filter that is not used). -/
structure Config (K : Type) where
  encoding : LookupEncoding
  bloomBits : K → Finset Nat

variable {K : Type} [DecidableEq K]

/-! ## The managers it holds -/

/-- Modelled from the spec: `bloom_filter_manager_t::is_positive` (bloom_filter_manager.hpp is
not in src/): every bit of the key is set. -/
def isPositive (cfg : Config K) (bloom : Finset Nat) (key : K) : Bool :=
  decide (cfg.bloomBits key ⊆ bloom)

/-- Modelled from the spec: `bloom_filter_manager_t::add_hash_value` sets the key's bits. -/
def addHashValue (cfg : Config K) (bloom : Finset Nat) (key : K) : Finset Nat :=
  bloom ∪ cfg.bloomBits key

namespace MapManager

/-- Modelled from the spec: `map_manager_t::emplace` (map_manager.hpp is not in src/) adds the
key, and reports false on a key it holds (hashdb_iterator_test.cpp). -/
def emplace (m : K → Option UInt64) (key : K) (pay : UInt64) : Option (K → Option UInt64) :=
  if m key = none then some (Function.update m key (some pay)) else none

/-- Modelled from the spec: `map_manager_t::change` sets the pay of a key it holds. -/
def change (m : K → Option UInt64) (key : K) (pay : UInt64) : Option (K → Option UInt64) :=
  if m key = none then none else some (Function.update m key (some pay))

/-- Modelled from the spec: `map_manager_t::erase` removes a key it holds. -/
def erase (m : K → Option UInt64) (key : K) : Option (K → Option UInt64) :=
  if m key = none then none else some (Function.update m key none)

/-- Modelled from the spec: `map_manager_t::has`. -/
def has (m : K → Option UInt64) (key : K) : Bool := (m key).isSome

end MapManager

/-- Modelled from the spec: `multimap_manager_t` (multimap_manager.hpp is not in src/), as
multimap_manager_test.cpp drives it. Each key's pays, in the order `equal_range` returns them
(the order they were added); a pair is stored at most once. -/
structure MultimapManager (K : Type) where
  pays : K → List UInt64
  nodup : ∀ key, (pays key).Nodup

namespace MultimapManager

theorem nodup_update (mm : MultimapManager K) (key : K) {l : List UInt64} (h : l.Nodup) :
    ∀ k, (Function.update mm.pays key l k).Nodup := fun k => by
  rw [Function.update_apply]
  split_ifs
  exacts [h, mm.nodup k]

/-- `emplace` adds the pair, and reports false on a pair it holds. -/
def emplace (mm : MultimapManager K) (key : K) (pay : UInt64) : Option (MultimapManager K) :=
  if h : pay ∈ mm.pays key then none
  else some ⟨Function.update mm.pays key (mm.pays key ++ [pay]),
    mm.nodup_update key ((mm.nodup key).append (List.nodup_singleton pay) (by simpa))⟩

/-- `erase` removes the pair, and reports false on a pair it lacks. -/
def erase (mm : MultimapManager K) (key : K) (pay : UInt64) : Option (MultimapManager K) :=
  if pay ∈ mm.pays key then
    some ⟨Function.update mm.pays key ((mm.pays key).erase pay),
      mm.nodup_update key ((mm.nodup key).erase pay)⟩
  else none

/-- `erase_range` removes every pair of the key, and reports false if there is none. -/
def eraseRange (mm : MultimapManager K) (key : K) : Option (MultimapManager K) :=
  if mm.pays key = [] then none
  else some ⟨Function.update mm.pays key [], mm.nodup_update key List.nodup_nil⟩

/-- `has_range`: the key has a pair. -/
def hasRange (mm : MultimapManager K) (key : K) : Bool := !(mm.pays key).isEmpty

@[simp] theorem pays_emplace {mm mm' : MultimapManager K} {key : K} {pay : UInt64}
    (h : mm.emplace key pay = some mm') :
    mm'.pays = Function.update mm.pays key (mm.pays key ++ [pay]) := by
  unfold emplace at h
  split_ifs at h
  cases h; rfl

end MultimapManager

/-! ## The manager -/

/-- Modelled from the spec: the counters of `hashdb_changes_t` (not in src/) that the manager
increments. -/
structure HashdbChanges where
  hashesInserted : Nat
  hashesRemoved : Nat
  hashesNotRemovedNoElement : Nat
  hashesNotRemovedNoKey : Nat
  deriving DecidableEq

/-- The managed store: the map, the multimap, the bits the bloom filter has set, and the
counters the caller passed in. -/
structure Manager (K : Type) where
  map : K → Option UInt64
  multimap : MultimapManager K
  bloom : Finset Nat
  changes : HashdbChanges

/-- A new store (`RW_NEW`), with zeroed counters. -/
def Manager.empty : Manager K :=
  ⟨fun _ => none, ⟨fun _ => [], fun _ => List.nodup_nil⟩, ∅, ⟨0, 0, 0, 0⟩⟩

/-- A map operation on the store; `none` when the map manager reports false. -/
def Manager.liftMap (op : (K → Option UInt64) → Option (K → Option UInt64)) (s : Manager K) :
    Option (Manager K) :=
  (op s.map).map fun m => { s with map := m }

/-- A multimap operation on the store; `none` when the multimap manager reports false. -/
def Manager.liftMultimap (op : MultimapManager K → Option (MultimapManager K)) (s : Manager K) :
    Option (Manager K) :=
  (op s.multimap).map fun mm => { s with multimap := mm }

/-- `++changes.<counter>` and `changes.<counter> += n`. -/
def modifyChanges (f : HashdbChanges → HashdbChanges) : EStateM String (Manager K) Unit :=
  modify fun s => { s with changes := f s.changes }

/-- The private helpers' shared shape: run an operation that reports whether it did anything,
and throw `std::runtime_error(msg)` if it did not ("really bad if ... fails"). -/
def checked (op : Manager K → Option (Manager K)) (msg : String) :
    EStateM String (Manager K) Unit := fun s =>
  match op s with
  | some s' => .ok () s'
  | none => .error msg s

/-! Each call is run symbolically with these, never unfolding `EStateM`'s own definitions. -/

section Run

variable {ε σ α β : Type}

@[simp] theorem run_bind (x : EStateM ε σ α) (f : α → EStateM ε σ β) (s : σ) :
    (x >>= f).run s = match x.run s with
      | .ok a s' => (f a).run s'
      | .error e s' => .error e s' := by
  show EStateM.bind x f s = _
  unfold EStateM.bind EStateM.run
  cases x s <;> rfl

@[simp] theorem run_get (s : σ) : (get : EStateM ε σ σ).run s = .ok s s := rfl

@[simp] theorem run_modify (f : σ → σ) (s : σ) :
    (modify f : EStateM ε σ Unit).run s = .ok () (f s) := rfl

@[simp] theorem run_throw (e : ε) (s : σ) : (throw e : EStateM ε σ α).run s = .error e s := rfl

@[simp] theorem run_pure (a : α) (s : σ) : (pure a : EStateM ε σ α).run s = .ok a s := rfl

end Run

omit [DecidableEq K] in
@[simp] theorem run_checked (op : Manager K → Option (Manager K)) (msg : String) (s : Manager K) :
    (checked op msg).run s = match op s with
      | some s' => .ok () s'
      | none => .error msg s := rfl

/-- `map_emplace`. -/
def mapEmplace (key : K) (sourceLookupEncoding : UInt64) : EStateM String (Manager K) Unit :=
  checked (Manager.liftMap (MapManager.emplace · key sourceLookupEncoding)) "map emplace failure"

/-- `multimap_emplace`. -/
def multimapEmplace (key : K) (sourceLookupEncoding : UInt64) :
    EStateM String (Manager K) Unit :=
  checked (Manager.liftMultimap (·.emplace key sourceLookupEncoding)) "multimap emplace failure"

/-- `map_change`, which the file also calls as `map_replace`. -/
def mapChange (key : K) (sourceLookupEncoding : UInt64) : EStateM String (Manager K) Unit :=
  checked (Manager.liftMap (MapManager.change · key sourceLookupEncoding)) "map change failure"

/-- `map_erase`. -/
def mapErase (key : K) : EStateM String (Manager K) Unit :=
  checked (Manager.liftMap (MapManager.erase · key)) "map erase failure"

/-- `multimap_erase(key, pay)`. -/
def multimapErase (key : K) (pay : UInt64) : EStateM String (Manager K) Unit :=
  checked (Manager.liftMultimap (·.erase key pay)) "multimap erase failure"

/-- `multimap_erase(key)` of `remove_key`: `erase_range` under the helper's check. -/
def multimapEraseRange (key : K) : EStateM String (Manager K) Unit :=
  checked (Manager.liftMultimap (·.eraseRange key)) "multimap erase failure"

/-- `multimap.erase(key, pay)` called directly, reporting whether it erased. -/
def multimapManagerErase (key : K) (pay : UInt64) : EStateM String (Manager K) Bool := fun s =>
  match s.multimap.erase key pay with
  | some mm => .ok true { s with multimap := mm }
  | none => .ok false s

@[simp] theorem run_multimapManagerErase (key : K) (pay : UInt64) (s : Manager K) :
    (multimapManagerErase key pay).run s = match s.multimap.erase key pay with
      | some mm => .ok true { s with multimap := mm }
      | none => .ok false s := rfl

section Calls

variable (cfg : Config K)

/-- `emplace`: a key the bloom filter or the map lacks goes to the map; a key the map holds
moves to the multimap, with the map pay turned into (or kept as) the key's count. -/
def emplace (key : K) (sourceLookupEncoding : UInt64) : EStateM String (Manager K) Unit := do
  let s ← get
  if !isPositive cfg s.bloom key then
    modify fun s => { s with bloom := addHashValue cfg s.bloom key }
    mapEmplace key sourceLookupEncoding
    modifyChanges fun c => { c with hashesInserted := c.hashesInserted + 1 }
  else
    match s.map key with
    | none =>
      mapEmplace key sourceLookupEncoding
      modifyChanges fun c => { c with hashesInserted := c.hashesInserted + 1 }
    | some pay =>
      let count := cfg.encoding.getCount pay
      if count = 1 then
        multimapEmplace key pay
        mapChange key (cfg.encoding.getSourceLookupEncoding 2)
        multimapEmplace key sourceLookupEncoding
        modifyChanges fun c => { c with hashesInserted := c.hashesInserted + 1 }
      else
        mapChange key (cfg.encoding.getSourceLookupEncoding ((count + 1) % 2 ^ 32))
        multimapEmplace key sourceLookupEncoding
        modifyChanges fun c => { c with hashesInserted := c.hashesInserted + 1 }

/-- `remove`: by the key's count, from the map (count 1), from the multimap moving the last
pay back to the map (count 2), or from the multimap alone. Dereferencing `equal_range`'s end,
undefined in C++, is an `.error` that leaves the state. -/
def remove (key : K) (sourceLookupEncoding : UInt64) : EStateM String (Manager K) Unit := do
  let s ← get
  match s.map key with
  | none =>
    modifyChanges fun c => { c with hashesNotRemovedNoElement := c.hashesNotRemovedNoElement + 1 }
  | some pay =>
    let count := cfg.encoding.getCount pay
    if count = 1 then
      if pay = sourceLookupEncoding then
        mapErase key
        modifyChanges fun c => { c with hashesRemoved := c.hashesRemoved + 1 }
      else
        modifyChanges fun c =>
          { c with hashesNotRemovedNoElement := c.hashesNotRemovedNoElement + 1 }
    else if count = 2 then
      if (← multimapManagerErase key sourceLookupEncoding) then
        modifyChanges fun c => { c with hashesRemoved := c.hashesRemoved + 1 }
        match (← get).multimap.pays key with
        | [] => throw "equal_range is empty"
        | first :: _ =>
          mapChange key first
          multimapErase key first
          if (← get).multimap.hasRange key then throw "corrupted multimap state failure"
      else
        modifyChanges fun c =>
          { c with hashesNotRemovedNoElement := c.hashesNotRemovedNoElement + 1 }
    else
      if (← multimapManagerErase key sourceLookupEncoding) then
        modifyChanges fun c => { c with hashesRemoved := c.hashesRemoved + 1 }
      else
        modifyChanges fun c =>
          { c with hashesNotRemovedNoElement := c.hashesNotRemovedNoElement + 1 }

/-- `remove_key`: erase the key from the map (count 1) or its pays from the multimap. -/
def removeKey (key : K) : EStateM String (Manager K) Unit := do
  let s ← get
  match s.map key with
  | none => modifyChanges fun c => { c with hashesNotRemovedNoKey := c.hashesNotRemovedNoKey + 1 }
  | some pay =>
    let count := cfg.encoding.getCount pay
    if count = 1 then mapErase key else multimapEraseRange key
    modifyChanges fun c => { c with hashesRemoved := c.hashesRemoved + count }

/-- `has_key`: the bloom filter, then the map. -/
def hasKey (s : Manager K) (key : K) : Bool :=
  if !isPositive cfg s.bloom key then false else MapManager.has s.map key

end Calls

/-! ## Runs -/

/-- A call of the manager's interface that changes the store. -/
inductive Call (K : Type)
  | emplace (key : K) (sourceLookupEncoding : UInt64)
  | remove (key : K) (sourceLookupEncoding : UInt64)
  | removeKey (key : K)
  deriving DecidableEq

/-- The key a call is about. -/
def Call.key : Call K → K
  | .emplace key _ => key
  | .remove key _ => key
  | .removeKey key => key

/-- The manager's code for a call. -/
def Call.run (cfg : Config K) : Call K → EStateM String (Manager K) Unit
  | .emplace key pay => MapMultimap.emplace cfg key pay
  | .remove key pay => MapMultimap.remove cfg key pay
  | .removeKey key => MapMultimap.removeKey cfg key

/-- The store a call leaves, whether it returned or threw. -/
def stateAfter {ε σ α : Type} : EStateM.Result ε σ α → σ
  | .ok _ s => s
  | .error _ s => s

/-- The message of the `std::runtime_error` a call threw, if it threw. -/
def thrown {ε σ α : Type} : EStateM.Result ε σ α → Option ε
  | .ok _ _ => none
  | .error e _ => some e

@[simp] theorem stateAfter_ok {ε σ α : Type} (a : α) (s : σ) :
    stateAfter (.ok a s : EStateM.Result ε σ α) = s := rfl

@[simp] theorem stateAfter_error {ε σ α : Type} (e : ε) (s : σ) :
    stateAfter (.error e s : EStateM.Result ε σ α) = s := rfl

@[simp] theorem thrown_ok {ε σ α : Type} (a : α) (s : σ) :
    thrown (.ok a s : EStateM.Result ε σ α) = none := rfl

@[simp] theorem thrown_error {ε σ α : Type} (e : ε) (s : σ) :
    thrown (.error e s : EStateM.Result ε σ α) = some e := rfl

/-- The store after one call; a call that throws leaves what it had done. -/
def step (cfg : Config K) (s : Manager K) (c : Call K) : Manager K :=
  stateAfter ((c.run cfg).run s)

/-- The store after the calls, in order, each made whatever the one before it did. -/
def run (cfg : Config K) : Manager K → List (Call K) → Manager K
  | s, [] => s
  | s, c :: cs => run cfg (step cfg s c) cs

@[simp] theorem run_nil (cfg : Config K) (s : Manager K) : run cfg s [] = s := rfl

@[simp] theorem run_cons (cfg : Config K) (s : Manager K) (c : Call K) (cs : List (Call K)) :
    run cfg s (c :: cs) = run cfg (step cfg s c) cs := rfl

end MapMultimap
end HashDb

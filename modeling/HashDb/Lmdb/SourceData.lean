import HashDb.Basic

/-!
# `lmdb_source_data_t`

The record the source data store keeps for a file (src/src/lmdb_source_data.hpp): four text
fields. `add(other)` merges another record into it field by field with `copy`, which fills an
empty field, leaves an equal one alone, and aborts (`assert(0)`) on a field already set to a
different value; `add` reports whether any field changed.

`add_fills_empty_fields` says what that comes to for whole records: `add` completes exactly
when each field is empty or already the other record's; the record is then the other one,
and `add` reports a change exactly when it was not already. So a set field is never
overwritten, a repeated `add` reports no change, and adding a record that leaves a set field
empty aborts.
-/

namespace HashDb
namespace Lmdb

/-- `lmdb_source_data_t`: the fields `add` merges. -/
structure LmdbSourceData where
  repositoryName : Bytes
  filename : Bytes
  filesize : Bytes
  hashdigest : Bytes
  deriving DecidableEq

/-- `copy(from, to)`: a fault if `to` is set to something other than `from`; otherwise the new
`to`, and whether it changed. -/
def copy (fromValue toValue : Bytes) : Except Fault (Bool × Bytes) :=
  if toValue ≠ [] ∧ fromValue ≠ toValue then .error .copyError
  else if fromValue = toValue then .ok (false, toValue)
  else .ok (true, fromValue)

theorem copy_eq (fromValue toValue : Bytes) :
    copy fromValue toValue =
      if toValue = [] ∨ toValue = fromValue then .ok (decide (toValue ≠ fromValue), fromValue)
      else .error .copyError := by
  by_cases hf : toValue = fromValue
  · subst hf; simp [copy]
  · by_cases ht : toValue = []
    · subst ht; simp [copy, Ne.symm hf]
    · simp [copy, ht, hf, Ne.symm hf]

namespace LmdbSourceData

/-- `add(other)`: `copy` of each field from `other`, in order, the changes or-ed together. -/
def add (data other : LmdbSourceData) : Except Fault (Bool × LmdbSourceData) := do
  let (c1, repositoryName) ← copy other.repositoryName data.repositoryName
  let (c2, filename) ← copy other.filename data.filename
  let (c3, filesize) ← copy other.filesize data.filesize
  let (c4, hashdigest) ← copy other.hashdigest data.hashdigest
  .ok (c1 || c2 || c3 || c4, ⟨repositoryName, filename, filesize, hashdigest⟩)

/-- Each field of `data` is empty or already `other`'s: `copy` takes every field. -/
def Fits (data other : LmdbSourceData) : Prop :=
  (data.repositoryName = [] ∨ data.repositoryName = other.repositoryName) ∧
  (data.filename = [] ∨ data.filename = other.filename) ∧
  (data.filesize = [] ∨ data.filesize = other.filesize) ∧
  (data.hashdigest = [] ∨ data.hashdigest = other.hashdigest)

instance (data other : LmdbSourceData) : Decidable (data.Fits other) :=
  inferInstanceAs (Decidable (_ ∧ _ ∧ _ ∧ _))

/-- `add` completes exactly when each field is empty or already `other`'s. The record is then
`other`, and `add` reports a change exactly when the record was not `other` already; otherwise
it aborts at the first field set to something else. -/
theorem add_fills_empty_fields (data other : LmdbSourceData) :
    data.add other =
      if data.Fits other then .ok (decide (data ≠ other), other) else .error .copyError := by
  obtain ⟨r, f, s, h⟩ := data
  obtain ⟨r', f', s', h'⟩ := other
  simp only [add, copy_eq, Fits]
  by_cases hr : r = [] ∨ r = r'
  · by_cases hf : f = [] ∨ f = f'
    · by_cases hs : s = [] ∨ s = s'
      · by_cases hh : h = [] ∨ h = h'
        · simp [hr, hf, hs, hh, bind, Except.bind, not_and_or, Bool.or_assoc]
        · simp [hr, hf, hs, hh, bind, Except.bind]
      · simp [hr, hf, hs, bind, Except.bind]
    · simp [hr, hf, bind, Except.bind]
  · simp [hr, bind, Except.bind]

end LmdbSourceData

end Lmdb
end HashDb

import HashDb.Basic
import Mathlib.Data.List.Range

/-!
# `string_pair_to_encoding`

`lmdb_helper::string_pair_to_encoding(s1, s2)` (src/src/lmdb_helper.h) builds the encoding in a
stack buffer `char cstr[l1 + 1 + l2]`: `std::strcpy` puts `s1.c_str()` at its start, then
`std::memcpy` puts the `l2` bytes of `s2` after the separator, and the `l1 + 1 + l2` bytes of
the buffer are returned. `strcpy` stops at the first NUL, so for an `s1` that holds a NUL the
bytes after it, up to and including the separator, are never written: they are what the buffer
held before. The model takes that content as a parameter, `garbage`, and states its results for
every content.
-/

namespace HashDb
namespace Codec

/-- The buffer after the bytes `src` are written over it from offset `off`. -/
def overwrite (dst : Bytes) (off : Nat) (src : Bytes) : Bytes :=
  dst.take off ++ src ++ dst.drop (off + src.length)

/-- `std::strcpy(dst, src)`: the bytes of the C string `src` up to and including its first
NUL, written over the start of `dst`. -/
def strcpy (dst src : Bytes) : Bytes := overwrite dst 0 (src.takeWhile (· != 0) ++ [0])

/-- `std::memcpy(dst + off, src, src.size())`. -/
def memcpy (dst : Bytes) (off : Nat) (src : Bytes) : Bytes := overwrite dst off src

/-- `string_pair_to_encoding(s1, s2)`, where `garbage i` is the byte the buffer held at `i`
before the copies. -/
def stringPairToEncoding (garbage : Nat → UInt8) (s1 s2 : Bytes) : Bytes :=
  let l1 := s1.length
  let l2 := s2.length
  let l3 := l1 + 1 + l2
  let cstr := (List.range l3).map garbage
  let cstr := strcpy cstr (s1 ++ [0])
  let cstr := memcpy cstr (l1 + 1) s2
  cstr.take l3

/-- Writing over a span of the buffer replaces that span. -/
theorem overwrite_span {off : Nat} {pre mid post src : Bytes} (hpre : pre.length = off)
    (hmid : mid.length = src.length) :
    overwrite (pre ++ mid ++ post) off src = pre ++ src ++ post := by
  have htake : (pre ++ mid ++ post).take off = pre := by
    rw [List.append_assoc, List.take_left' hpre]
  have hdrop : (pre ++ mid ++ post).drop (off + src.length) = post :=
    List.drop_left' (by rw [List.length_append, hpre, hmid])
  rw [overwrite, htake, hdrop]

/-- `s1.c_str()` ends with the NUL after `s1`, so `strcpy` stops at the first NUL of `s1` or
there. -/
theorem takeWhile_c_str (s : Bytes) : (s ++ [0]).takeWhile (· != 0) = s.takeWhile (· != 0) := by
  induction s with
  | nil => rfl
  | cons c rest ih => by_cases hc : c = 0 <;> simp [List.takeWhile_cons, hc, ih]

/-- The encoding is `s1` up to its first NUL, a NUL, the bytes the buffer held up to the
separator, and `s2`. -/
theorem stringPairToEncoding_eq (garbage : Nat → UInt8) (s1 s2 : Bytes) :
    stringPairToEncoding garbage s1 s2 =
      s1.takeWhile (· != 0) ++ 0 :: ((List.range' ((s1.takeWhile (· != 0)).length + 1)
        (s1.length - (s1.takeWhile (· != 0)).length)).map garbage ++ s2) := by
  generalize ht : s1.takeWhile (· != 0) = tw
  have hp : tw.length ≤ s1.length := ht ▸ (List.takeWhile_sublist _).length_le
  -- the buffer, cut where the two copies end
  have hrange : List.range (s1.length + 1 + s2.length) =
      List.range' 0 (tw.length + 1) ++ List.range' (tw.length + 1) (s1.length - tw.length) ++
        List.range' (s1.length + 1) s2.length := by
    have h1 := List.range'_append_1 0 (tw.length + 1) (s1.length - tw.length)
    have h2 := List.range'_append_1 0 (s1.length + 1) s2.length
    rw [Nat.zero_add, show s1.length - tw.length + (tw.length + 1) = s1.length + 1 by omega]
      at h1
    rw [Nat.zero_add] at h2
    rw [h1, h2, List.range_eq_range', Nat.add_comm s2.length]
  simp only [stringPairToEncoding, strcpy, memcpy, takeWhile_c_str, ht, hrange, List.map_append]
  generalize hA : List.map garbage (List.range' 0 (tw.length + 1)) = A
  generalize hB : List.map garbage (List.range' (tw.length + 1) (s1.length - tw.length)) = B
  generalize hC : List.map garbage (List.range' (s1.length + 1) s2.length) = C
  have lA : A.length = tw.length + 1 := by simp [← hA]
  have lB : B.length = s1.length - tw.length := by simp [← hB]
  have lC : C.length = s2.length := by simp [← hC]
  -- `strcpy` writes over the first `tw.length + 1` bytes, `memcpy` over the last `l2`
  have hcpy : overwrite (A ++ B ++ C) 0 (tw ++ [0]) = tw ++ [0] ++ B ++ C ++ [] := by
    rw [show A ++ B ++ C = [] ++ A ++ (B ++ C) by simp,
      overwrite_span (show ([] : Bytes).length = 0 from rfl) (by simp [lA])]
    simp
  rw [hcpy, overwrite_span (by simp [lB]; omega) lC, List.take_of_length_le (by simp [lB]; omega)]
  simp

/-- The encoding is `s1`, NUL, `s2` whatever the buffer held exactly when `s1` holds no NUL:
otherwise the bytes of `s1` after its first NUL are lost, and the separator is the buffer's
own byte. -/
theorem string_pair_encoding_stops_at_nul (garbage : Nat → UInt8) (s1 s2 : Bytes) :
    stringPairToEncoding garbage s1 s2 =
        s1.takeWhile (· != 0) ++ 0 :: ((List.range' ((s1.takeWhile (· != 0)).length + 1)
          (s1.length - (s1.takeWhile (· != 0)).length)).map garbage ++ s2) ∧
      ((∀ g, stringPairToEncoding g s1 s2 = s1 ++ 0 :: s2) ↔ (0 : UInt8) ∉ s1) := by
  refine ⟨stringPairToEncoding_eq garbage s1 s2, fun h h0 => ?_, fun h g => ?_⟩
  · -- in a buffer of ones the encoding has one NUL fewer than `s1`, NUL, `s2`
    have hc := congrArg (List.count 0) (h fun _ => 1)
    have htw : List.count 0 (s1.takeWhile (· != 0)) = 0 :=
      List.count_eq_zero.2 fun hm => by simpa using List.mem_takeWhile_imp hm
    have hs1 : 0 < List.count 0 s1 := List.count_pos_iff.2 h0
    rw [stringPairToEncoding_eq] at hc
    simp only [List.count_append, List.count_cons, htw, List.map_const', List.count_replicate,
      show ((1 : UInt8) == 0) = false from rfl, beq_self_eq_true, Bool.false_eq_true,
      if_false, if_true] at hc
    omega
  · rw [stringPairToEncoding_eq,
      List.takeWhile_eq_self_iff.2 fun x hx => by simpa using ne_of_mem_of_not_mem hx h]
    simp

end Codec
end HashDb

import Mathlib.Algebra.Group.Nat.Basic
import Mathlib.Data.List.Lex

/-!
# Basic notions shared by the model of hashdb

* `Bytes`: the byte strings LMDB stores as keys and data items and that the
  `lmdb_helper` codecs read and write (`std::string`, `MDB_val`).
* A linear order on `UInt8`, so that byte strings carry the lexicographic order
  LMDB's default comparison (`memcmp`, then length) puts on keys and duplicates.
* `Fault`: the `assert(0)` sites of the modelled code. A modelled function returns
  `.error f` exactly where the C++ would abort at site `f`.
* Word lemmas: the `toNat` of the `UInt8`/`UInt32`/`UInt64` operations the codecs use,
  so that every codec fact is argued in `Nat`.
* `foldl_eq_of_filter_eq`: a run of calls that commute when their keys differ depends only on
  the calls of each key, in their order; both stores' interleaving results rest on it.
-/

namespace HashDb

/-- Byte strings: LMDB keys and data items, `std::string` contents. -/
abbrev Bytes := List UInt8

/-- Bytes compare by value; byte strings then compare lexicographically, as `memcmp`. -/
instance instLinearOrderUInt8 : LinearOrder UInt8 :=
  LinearOrder.lift' UInt8.toNat (fun _ _ => UInt8.toNat.inj)

/-- The `assert(0)` sites reached by the modelled functions. -/
inductive Fault
  /-- `private_encoding_to_uint64`: "corrupted uint64 protocol buffer" (ten bytes, all
  with the continuation bit). -/
  | corruptUint64
  /-- `encoding_to_uint64_pair`: "corrupt data on read." -/
  | corruptData
  /-- A read past the end of an `MDB_val`; the C++ does not check it, the model stops. -/
  | readPastEnd
  /-- `insert` with `source_id == 0`. -/
  | sourceIdZero
  /-- "empty key": `insert`, `find` or `find_count` given an empty hash. -/
  | emptyKey
  /-- "LMDB error: ...": an LMDB call returned an unexpected code. -/
  | lmdbError
  /-- A stored data item of size 0. -/
  | emptyData
  /-- A `decode_typeN` read that does not end at the end of the record. -/
  | misaligned
  /-- `put_type1`/`put_type3` given an offset that is not a multiple of `sector_size`. -/
  | badFileOffset
  /-- `find_count` on a Type 2 key whose cursor count is 1. -/
  | countOne
  /-- "find_next: already at end": `find_next` given the empty hash. -/
  | alreadyAtEnd
  /-- "char <c>": `tohex` given a value above 15. -/
  | notHexValue
  /-- "copy error, from <from> to <to>": `lmdb_source_data_t::copy` asked to change a field
  that is already set. -/
  | copyError
  deriving DecidableEq, Repr

/-- Results compare constructor by constructor, so that the model's functions can be run and
their results compared by `decide`. -/
instance instDecidableEqExcept {ε α : Type} [DecidableEq ε] [DecidableEq α] :
    DecidableEq (Except ε α)
  | .ok a, .ok b => decidable_of_iff (a = b) ⟨congrArg _, Except.ok.inj⟩
  | .error a, .error b => decidable_of_iff (a = b) ⟨congrArg _, Except.error.inj⟩
  | .ok _, .error _ => isFalse Except.noConfusion
  | .error _, .ok _ => isFalse Except.noConfusion

/-! ## Word lemmas -/

@[simp] theorem uint8_toNat_or (a b : UInt8) : (a ||| b).toNat = a.toNat ||| b.toNat :=
  BitVec.toNat_or ..

@[simp] theorem uint8_toNat_add (a b : UInt8) : (a + b).toNat = (a.toNat + b.toNat) % 2 ^ 8 :=
  BitVec.toNat_add ..

@[simp] theorem uint8_toNat_shiftRight (a b : UInt8) :
    (a >>> b).toNat = a.toNat >>> (b.toNat % 8) := by
  show (a.toBitVec >>> (b % 8).toBitVec).toNat = _
  simp [BitVec.toNat_ushiftRight]
  rfl

@[simp] theorem uint8_toNat_shiftLeft (a b : UInt8) :
    (a <<< b).toNat = (a.toNat <<< (b.toNat % 8)) % 2 ^ 8 := by
  show (a.toBitVec <<< (b % 8).toBitVec).toNat = _
  simp [BitVec.toNat_shiftLeft]
  rfl

@[simp] theorem nat_toUInt8_toNat (n : Nat) : n.toUInt8.toNat = n % 2 ^ 8 := by
  simp [Nat.toUInt8, UInt8.ofNat, UInt8.toNat]

theorem uint8_le_iff (a b : UInt8) : a ≤ b ↔ a.toNat ≤ b.toNat := Iff.rfl

theorem uint8_eq_iff (a b : UInt8) : a = b ↔ a.toNat = b.toNat :=
  ⟨congrArg _, UInt8.toNat.inj⟩

@[simp] theorem uint32_toNat_or (a b : UInt32) : (a ||| b).toNat = a.toNat ||| b.toNat :=
  BitVec.toNat_or ..

@[simp] theorem uint64_toNat_or (a b : UInt64) : (a ||| b).toNat = a.toNat ||| b.toNat :=
  BitVec.toNat_or ..

@[simp] theorem uint32_toNat_shiftRight (a b : UInt32) :
    (a >>> b).toNat = a.toNat >>> (b.toNat % 32) := by
  show (a.toBitVec >>> (b % 32).toBitVec).toNat = _
  simp [BitVec.toNat_ushiftRight]
  rfl

@[simp] theorem uint64_toNat_shiftRight (a b : UInt64) :
    (a >>> b).toNat = a.toNat >>> (b.toNat % 64) := by
  show (a.toBitVec >>> (b % 64).toBitVec).toNat = _
  simp [BitVec.toNat_ushiftRight]
  rfl

@[simp] theorem uint32_toNat_shiftLeft (a b : UInt32) :
    (a <<< b).toNat = (a.toNat <<< (b.toNat % 32)) % 2 ^ 32 := by
  show (a.toBitVec <<< (b % 32).toBitVec).toNat = _
  simp [BitVec.toNat_shiftLeft]
  rfl

@[simp] theorem uint64_toNat_shiftLeft (a b : UInt64) :
    (a <<< b).toNat = (a.toNat <<< (b.toNat % 64)) % 2 ^ 64 := by
  show (a.toBitVec <<< (b % 64).toBitVec).toNat = _
  simp [BitVec.toNat_shiftLeft]
  rfl

@[simp] theorem uint64_toUInt32_toNat (a : UInt64) : a.toUInt32.toNat = a.toNat % 2 ^ 32 := by
  simp [UInt64.toUInt32, Nat.toUInt32, UInt32.ofNat, UInt32.toNat]

@[simp] theorem uint32_toUInt8_toNat (a : UInt32) : a.toUInt8.toNat = a.toNat % 2 ^ 8 := by
  simp [UInt32.toUInt8, Nat.toUInt8, UInt8.ofNat, UInt8.toNat]

@[simp] theorem uint8_toUInt32_toNat (a : UInt8) : a.toUInt32.toNat = a.toNat := rfl

@[simp] theorem uint32_toUInt64_toNat (a : UInt32) : a.toUInt64.toNat = a.toNat := rfl

@[simp] theorem nat_toUInt64_toNat (n : Nat) : n.toUInt64.toNat = n % 2 ^ 64 := by
  simp [Nat.toUInt64, UInt64.ofNat, UInt64.toNat]

@[simp] theorem nat_toUInt32_toNat (n : Nat) : n.toUInt32.toNat = n % 2 ^ 32 := by
  simp [Nat.toUInt32, UInt32.ofNat, UInt32.toNat]

theorem uint32_eq_zero_iff (a : UInt32) : a = 0 ↔ a.toNat = 0 :=
  ⟨fun h => h ▸ rfl, fun h => UInt32.toNat.inj h⟩

theorem uint32_lt_iff (a b : UInt32) : a < b ↔ a.toNat < b.toNat := Iff.rfl

/-- Setting bit 7 and keeping the low byte: the continuation byte of a varint group. -/
theorem or_128_mod_256 (x : Nat) : (x ||| 128) % 256 = x % 128 + 128 := by
  apply Nat.eq_of_testBit_eq
  intro i
  rw [show x % 128 + 128 = 2 ^ 7 * 1 + x % 2 ^ 7 by omega,
    Nat.mul_add_lt_is_or (Nat.mod_lt _ (by decide))]
  simp only [show (256 : Nat) = 2 ^ 8 by rfl, show (128 : Nat) = 2 ^ 7 by rfl,
    Nat.testBit_mod_two_pow, Nat.testBit_or, Nat.testBit_two_pow, Nat.mul_one]
  by_cases h7 : i = 7
  · subst h7; simp
  · by_cases h8 : i < 8
    · simp [h8, h7, Ne.symm h7]; omega
    · simp [h8, Ne.symm h7]; omega

/-- Bit 7 of a byte value: what the varint decoder tests to go on. -/
theorem and_128_eq_zero {x : Nat} (hx : x < 256) : x &&& 128 = 0 ↔ x < 128 := by
  have h128 : (128 : Nat) = 2 ^ 7 := rfl
  constructor
  · intro h
    by_contra hge
    have hbit : x.testBit 7 = true := by
      rw [show x = 2 ^ 7 + (x - 128) by omega, Nat.testBit_two_pow_add_eq,
        Nat.testBit_lt_two_pow (by omega : x - 128 < 2 ^ 7)]; rfl
    have := congrArg (Nat.testBit · 7) h
    simp [Nat.testBit_and, hbit] at this
    rw [h128, Nat.testBit_two_pow_self] at this
    exact Bool.noConfusion this
  · intro hlt
    apply Nat.eq_of_testBit_eq; intro i
    simp only [Nat.testBit_and, Nat.zero_testBit, Bool.and_eq_false_iff]
    by_cases h : i = 7
    · subst h; left; exact Nat.testBit_lt_two_pow hlt
    · right; rw [h128, Nat.testBit_two_pow]; simp [Ne.symm h]

theorem and_127 (x : Nat) : x &&& 127 = x % 128 := Nat.and_pow_two_sub_one_eq_mod x 7

/-- An `or` of bit groups that do not overlap is their sum. -/
theorem or_eq_add_of_lt {a b s : Nat} (ha : a < 2 ^ s) : a ||| b * 2 ^ s = a + b * 2 ^ s := by
  rw [Nat.or_comm, Nat.mul_comm, ← Nat.mul_add_lt_is_or ha]; omega

/-! ## Runs whose calls commute across keys -/

section Interleave

variable {S α β : Type} (f : S → α → S) (key : α → β)

/-- A call moves to the front past calls on other keys. -/
theorem foldl_move_front (hswap : ∀ s a b, key a ≠ key b → f (f s a) b = f (f s b) a) (a : α)
    (q : List α) : ∀ {p : List α}, (∀ b ∈ p, key b ≠ key a) → ∀ s,
      (p ++ a :: q).foldl f s = (p ++ q).foldl f (f s a)
  | [], _, _ => rfl
  | b :: p, hp, s => by
    rw [List.cons_append, List.foldl_cons, foldl_move_front hswap a q
      (fun c hc => hp c (List.mem_cons_of_mem b hc)), hswap s b a (hp b (List.mem_cons_self b p))]
    rfl

/-- Two runs of calls that commute on different keys end in the same state when each key has
the same calls in the same order in both. -/
theorem foldl_eq_of_filter_eq [DecidableEq β] (hswap : ∀ s a b, key a ≠ key b → f (f s a) b = f (f s b) a) :
    ∀ (l₁ l₂ : List α), (∀ k, l₁.filter (key · = k) = l₂.filter (key · = k)) →
      ∀ s, l₁.foldl f s = l₂.foldl f s
  | [], l₂, h, s => by
    have : l₂ = [] := List.eq_nil_iff_forall_not_mem.2 fun a ha => by
      have hk := (h (key a)).symm
      rw [List.filter_nil, List.filter_eq_nil_iff] at hk
      exact hk a ha (decide_eq_true rfl)
    rw [this]
  | a :: t, l₂, h, s => by
    have ha : l₂.filter (key · = key a) = a :: t.filter (key · = key a) := by
      rw [← h, List.filter_cons, if_pos (decide_eq_true rfl)]
    rw [List.filter_eq_cons_iff] at ha
    obtain ⟨p, q, rfl, hp, -, hq⟩ := ha
    have hp' : ∀ b ∈ p, key b ≠ key a := fun b hb hk => hp b hb (decide_eq_true hk)
    rw [foldl_move_front f key hswap a q hp', List.foldl_cons]
    refine foldl_eq_of_filter_eq hswap t (p ++ q) (fun k => ?_) (f s a)
    by_cases hk : key a = k
    · subst hk
      rw [List.filter_append, List.filter_eq_nil_iff.2 hp, hq, List.nil_append]
    · have hk' : ¬decide (key a = k) = true := by simpa using hk
      have := h k
      rw [List.filter_cons, if_neg hk', List.filter_append, List.filter_cons, if_neg hk',
        ← List.filter_append] at this
      exact this

end Interleave

end HashDb

import HashDb.Basic

/-!
# `escape_json`

`lmdb_helper::escape_json` (src/src/lmdb_helper.h) writes the labels, file types and names of
the JSON the commands print. Its `switch` escapes the backslash, the double quote, the slash
and the five control characters JSON names (`\b \f \n \r \t`), and copies every other byte.

The body it writes is held to the string rules of JSON, read back by `readBody`: a backslash
begins one of the escapes, any other byte stands for itself if the rules allow it unescaped. Two sets of rules are compared:

* `quoteFree`, which forbids only a raw `"`: under it every `escape_json` body is well formed
  and reads back as its input (`readBody_escapeJson`);
* `jsonUnescaped`, JSON's own, which also forbids raw bytes below `0x20`: the body of an input
  with a control byte other than the five is not a JSON string body, since the byte is copied
  raw (`escape_json_passes_controls`).
-/

namespace HashDb
namespace Codec

/-! ## The escaper -/

/-- The `switch` of `escape_json` on one character: `\\`, `\"`, `\/`, `\b`, `\f`, `\n`, `\r`
and `\t` for the backslash (92), the double quote (34), the slash (47), backspace (8), form
feed (12), newline (10), carriage return (13) and tab (9); the character itself otherwise. -/
def escapeJsonChar (c : UInt8) : Bytes :=
  if c = 92 then [92, 92]
  else if c = 34 then [92, 34]
  else if c = 47 then [92, 47]
  else if c = 8 then [92, 'b'.toUInt8]
  else if c = 12 then [92, 'f'.toUInt8]
  else if c = 10 then [92, 'n'.toUInt8]
  else if c = 13 then [92, 'r'.toUInt8]
  else if c = 9 then [92, 't'.toUInt8]
  else [c]

/-- `escape_json(input)`: each character's escape, in order. -/
def escapeJson : Bytes → Bytes
  | [] => []
  | c :: rest => escapeJsonChar c ++ escapeJson rest

/-! ## The JSON string rules -/

/-- The character a JSON escape `\e` stands for, for the eight escapes `escape_json` writes;
`none` for any other. -/
def escapeValue (e : UInt8) : Option UInt8 :=
  if e = 34 then some 34
  else if e = 92 then some 92
  else if e = 47 then some 47
  else if e = 'b'.toUInt8 then some 8
  else if e = 'f'.toUInt8 then some 12
  else if e = 'n'.toUInt8 then some 10
  else if e = 'r'.toUInt8 then some 13
  else if e = 't'.toUInt8 then some 9
  else none

/-- A string body read by the rules: a backslash must begin an escape `escapeValue` knows, and
any other byte stands for itself if `unescaped` allows it; `none` where the body breaks the
rules. The `\u` escapes, which `escape_json` never writes, are left out. -/
def readBody (unescaped : UInt8 → Bool) : Bytes → Option Bytes
  | [] => some []
  | c :: rest =>
    if c = 92 then
      match rest with
      | e :: rest' => do
        let d ← escapeValue e
        let tail ← readBody unescaped rest'
        some (d :: tail)
      | [] => none
    else if unescaped c then (readBody unescaped rest).map (c :: ·)
    else none

/-- JSON's unescaped characters: from `0x20` up, but not the double quote. (The backslash
never reaches the test; bytes from `0x80` on are taken as they come, as UTF-8 is not checked.) -/
def jsonUnescaped (c : UInt8) : Bool := 32 ≤ c.toNat && c != 34

/-- The rules with raw control bytes let through: only the double quote must be escaped. -/
def quoteFree (c : UInt8) : Bool := c != 34

/-- The characters the `switch` escapes. -/
def Escaped (c : UInt8) : Prop := c ∈ ([92, 34, 47, 8, 12, 10, 13, 9] : Bytes)

instance (c : UInt8) : Decidable (Escaped c) := inferInstanceAs (Decidable (_ ∈ _))

/-- A control byte that JSON requires escaped and `escape_json` copies. -/
def BareControl (c : UInt8) : Prop := c.toNat < 32 ∧ ¬Escaped c

instance (c : UInt8) : Decidable (BareControl c) := inferInstanceAs (Decidable (_ ∧ _))

/-! ## Reading the escaper's output -/

/-- Each character is escaped into one of the eight escapes, or copied. -/
theorem escapeJsonChar_cases (c : UInt8) :
    (Escaped c ∧ ∃ e, escapeJsonChar c = [92, e] ∧ escapeValue e = some c) ∨
      (¬Escaped c ∧ escapeJsonChar c = [c]) := by
  by_cases h : Escaped c
  · refine .inl ⟨h, ?_⟩
    simp only [Escaped, List.mem_cons, List.mem_singleton, List.not_mem_nil, or_false] at h
    rcases h with rfl | rfl | rfl | rfl | rfl | rfl | rfl | rfl <;> exact ⟨_, rfl, rfl⟩
  · refine .inr ⟨h, ?_⟩
    simp only [Escaped, List.mem_cons, List.mem_singleton, List.not_mem_nil, or_false,
      not_or] at h
    obtain ⟨h1, h2, h3, h4, h5, h6, h7, h8⟩ := h
    rw [escapeJsonChar, if_neg h1, if_neg h2, if_neg h3, if_neg h4, if_neg h5, if_neg h6,
      if_neg h7, if_neg h8]

section Read

variable {unescaped : UInt8 → Bool}

theorem readBody_escape {e d : UInt8} (he : escapeValue e = some d) (t : Bytes) :
    readBody unescaped (92 :: e :: t) = (readBody unescaped t).map (d :: ·) := by
  cases h : readBody unescaped t <;> simp [readBody, he, h]

theorem readBody_raw {c : UInt8} (hc : c ≠ 92) (t : Bytes) :
    readBody unescaped (c :: t) =
      if unescaped c then (readBody unescaped t).map (c :: ·) else none := by
  rw [readBody.eq_def]
  simp only [if_neg hc]

/-- Reading one character's escape, then the rest. -/
theorem readBody_escapeJsonChar (c : UInt8) (t : Bytes) :
    readBody unescaped (escapeJsonChar c ++ t) =
      if Escaped c ∨ unescaped c = true then (readBody unescaped t).map (c :: ·) else none := by
  rcases escapeJsonChar_cases c with ⟨hc, e, he, hv⟩ | ⟨hc, he⟩
  · rw [he, if_pos (.inl hc)]
    exact readBody_escape hv t
  · have h92 : c ≠ 92 := fun h => hc (by simp [Escaped, h])
    rw [he, List.singleton_append, readBody_raw h92]
    simp [hc]

theorem readBody_escapeJson (s : Bytes) :
    readBody unescaped (escapeJson s) =
      if ∀ c ∈ s, Escaped c ∨ unescaped c = true then some s else none := by
  induction s with
  | nil => rfl
  | cons c rest ih =>
    rw [escapeJson, readBody_escapeJsonChar, ih]
    by_cases hc : Escaped c ∨ unescaped c = true <;>
      by_cases hr : ∀ c ∈ rest, Escaped c ∨ unescaped c = true <;> simp [hc, hr]

end Read

theorem mem_escapeJsonChar_of_bareControl {c : UInt8} (h : BareControl c) :
    c ∈ escapeJsonChar c := by
  obtain ⟨-, he⟩ := h
  simp only [Escaped, List.mem_cons, List.mem_singleton, not_or] at he
  simp [escapeJsonChar, he]

/-- `escape_json` writes a body with no raw double quote, whose every backslash begins one of
its escapes, and which reads back as its input; but it copies every control byte other than
`\b \f \n \r \t` raw, so its body follows JSON's rules exactly when the input has no such byte,
and then reads back as the input. -/
theorem escape_json_passes_controls (s : Bytes) :
    readBody quoteFree (escapeJson s) = some s ∧
    readBody jsonUnescaped (escapeJson s) = (if ∀ c ∈ s, ¬BareControl c then some s else none) ∧
    ∀ c ∈ s, BareControl c → c ∈ escapeJson s := by
  refine ⟨?_, ?_, fun c hc hb => ?_⟩
  · rw [readBody_escapeJson, if_pos]
    intro c _
    by_cases h : c = 34
    · exact .inl (by simp [Escaped, h])
    · exact .inr (by simpa [quoteFree] using h)
  · rw [readBody_escapeJson]
    congr 1
    refine propext (forall₂_congr fun c _ => ?_)
    by_cases he : Escaped c
    · simp [he, BareControl]
    · have h34 : c ≠ 34 := fun h => he (by simp [Escaped, h])
      simp [he, BareControl, jsonUnescaped, h34]
  · induction s with
    | nil => cases hc
    | cons c' rest ih =>
      rw [escapeJson, List.mem_append]
      rcases List.mem_cons.1 hc with rfl | hc
      · exact .inl (mem_escapeJsonChar_of_bareControl hb)
      · exact .inr (ih hc)

end Codec
end HashDb

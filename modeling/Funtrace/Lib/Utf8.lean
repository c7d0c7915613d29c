/-
  Strings and the bytes that encode them.

  Decoding is strict: it gives a string only for the bytes of one (`decodeUtf8_eq_some`),
  and the bytes of several strings in a row are those of the strings joined.
-/
import Mathlib.Data.List.Basic
import Mathlib.Tactic.SplitIfs

namespace Funtrace

/-- The UTF-8 encoding of a string. -/
def utf8Bytes (s : String) : List UInt8 := s.toByteArray.data.toList

/-- The string that some bytes encode. -/
def decodeUtf8 (bytes : List UInt8) : Option String := String.fromUTF8? ⟨bytes.toArray⟩

theorem decodeUtf8_eq_some {bytes : List UInt8} {s : String} :
    decodeUtf8 bytes = some s ↔ utf8Bytes s = bytes := by
  unfold decodeUtf8 utf8Bytes String.fromUTF8?
  constructor
  · intro h
    split_ifs at h with hvalid
    rw [← Option.some.inj h]
    rfl
  · rintro rfl
    have hbytes : (⟨s.toByteArray.data.toList.toArray⟩ : ByteArray) = s.toByteArray := by
      rw [Array.toArray_toList]
    rw [hbytes, dif_pos s.isValidUTF8]
    rfl

@[simp] theorem decodeUtf8_utf8Bytes (s : String) : decodeUtf8 (utf8Bytes s) = some s :=
  decodeUtf8_eq_some.2 rfl

theorem utf8Bytes_append (s t : String) : utf8Bytes (s ++ t) = utf8Bytes s ++ utf8Bytes t := by
  unfold utf8Bytes
  rw [String.toByteArray_append, ByteArray.data_append, Array.toList_append]

theorem utf8Bytes_ofList (cs : List Char) :
    utf8Bytes (String.ofList cs) = cs.flatMap String.utf8EncodeChar := by
  unfold utf8Bytes
  rw [String.toByteArray_ofList, List.utf8Encode, List.data_toByteArray]

/-- A character of ASCII is one byte, and no byte of another one is one of ASCII. -/
theorem utf8EncodeChar_cases (c : Char) :
    (c.toNat < 0x80 ∧ String.utf8EncodeChar c = [UInt8.ofNat c.toNat]) ∨
      (0x80 ≤ c.toNat ∧ ∀ b ∈ String.utf8EncodeChar c, 0x80 ≤ b) := by
  have hge (n k : ℕ) (hk : 0x80 ≤ k) (hn : n + k < 0x100) : 0x80 ≤ UInt8.ofNat (n + k) := by
    rw [UInt8.le_iff_toNat_le, UInt8.toNat_ofNat_of_lt' hn]
    exact Nat.le_trans hk (Nat.le_add_left k n)
  unfold String.utf8EncodeChar
  dsimp only
  split_ifs with h1 h2 h3
  · exact Or.inl ⟨by rw [Char.toNat]; omega, rfl⟩
  · refine Or.inr ⟨by rw [Char.toNat]; omega, ?_⟩
    simp only [List.forall_mem_cons]
    exact ⟨hge _ _ (by decide) (by omega), hge _ _ (by decide) (by omega), List.forall_mem_nil _⟩
  · refine Or.inr ⟨by rw [Char.toNat]; omega, ?_⟩
    simp only [List.forall_mem_cons]
    exact ⟨hge _ _ (by decide) (by omega), hge _ _ (by decide) (by omega),
      hge _ _ (by decide) (by omega), List.forall_mem_nil _⟩
  · refine Or.inr ⟨by rw [Char.toNat]; omega, ?_⟩
    simp only [List.forall_mem_cons]
    exact ⟨hge _ _ (by decide) (by omega), hge _ _ (by decide) (by omega),
      hge _ _ (by decide) (by omega), hge _ _ (by decide) (by omega), List.forall_mem_nil _⟩

end Funtrace

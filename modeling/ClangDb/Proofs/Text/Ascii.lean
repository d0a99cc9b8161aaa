import ClangDb.Proofs.Text.Utf8
import ClangDb.Text.Lines

/-! # ASCII text

    A character of ASCII is one byte, and the byte is read as the character
    again.  ASCII text without carriage returns therefore goes to a file and back
    as it is: neither its encoding nor the translation of line ends changes it.

    Key theorems:
    - `exists_encode`: the bytes of an ASCII text are read as the text,
    - `universal_eq_self`: line feeds alone are kept.
-/

namespace ClangDb

namespace Utf8

variable {s : Text}

/-- Holds of the characters of ASCII. -/
def IsAscii (c : CodePoint) : Prop := c.toNat < 0x80

/-- The byte of a character of ASCII. -/
theorem unitBytes_of_isAscii {c : CodePoint} (h : IsAscii c) :
    ∃ b : UInt8, encodeUnit? c = some [b] ∧ b < 0x80 ∧ c = .char (Char.ofNat b.toNat) := by
  cases c with
  | lone u =>
    simp only [IsAscii, CodePoint.toNat] at h
    omega
  | char x =>
    have hx : x.toNat < 0x80 := h
    have hle : x.toNat ≤ 127 := by omega
    have hbyte : (UInt8.ofNat x.toNat).toNat = x.toNat := by
      rw [UInt8.toNat_ofNat']
      omega
    refine ⟨UInt8.ofNat x.toNat, ?_, ?_, ?_⟩
    · simp [encodeUnit?, String.utf8EncodeChar, hle]
    · rw [UInt8.lt_iff_toNat_lt, hbyte]
      exact hx
    · rw [hbyte, Char.ofNat_toNat]

theorem decodeFrom_bytesOf (h : ∀ c ∈ s, IsAscii c) (n : Nat) :
    decodeFrom n (pieces (bytesOf s)) = .ok s := by
  induction s generalizing n with
  | nil => rfl
  | cons c s ih =>
    obtain ⟨b, hunit, hb, hc⟩ := unitBytes_of_isAscii (h c List.mem_cons_self)
    have hbytes : bytesOf (c :: s) = b :: bytesOf s := by
      rw [bytesOf_cons, unitBytes, hunit]
      rfl
    -- a byte of ASCII is a piece of its own
    have hpieces : pieces (b :: bytesOf s) = .char (Char.ofNat b.toNat) :: pieces (bytesOf s) := by
      rw [pieces, piecesFrom, step, first, if_pos hb]
      rfl
    rw [hbytes, hpieces, decodeFrom, ih fun d hd => h d (List.mem_cons_of_mem _ hd), ← hc]

/-- **ASCII text goes to bytes and back.** -/
theorem exists_encode (h : ∀ c ∈ s, IsAscii c) :
    ∃ bytes, encode s = .ok bytes ∧ decode bytes = .ok s := by
  have hencodable : Encodable s := by
    intro c hc
    obtain ⟨b, hunit, _⟩ := unitBytes_of_isAscii (h c hc)
    rw [hunit]
    rfl
  exact ⟨bytesOf s, encode_eq_ok_iff.mpr ⟨hencodable, rfl⟩, decodeFrom_bytesOf h 0⟩

end Utf8

namespace Text

/-- What holds no carriage return is kept, whatever follows it. -/
theorem universal_append_of_not_mem {a : Text} (h : .char '\r' ∉ a) (b : Text) :
    universal (a ++ b) = a ++ universal b := by
  induction a with
  | nil => rfl
  | cons c a ih =>
    rw [List.mem_cons, not_or] at h
    rw [List.cons_append, universal, if_neg (Ne.symm h.1), ih h.2, List.cons_append]

/-- Line feeds alone are kept. -/
theorem universal_eq_self {s : Text} (h : .char '\r' ∉ s) : s.universal = s := by
  have hkept := universal_append_of_not_mem h []
  rwa [List.append_nil, universal, List.append_nil] at hkept

end Text

end ClangDb

import ClangDb.Proofs.Text.Lines
import ClangDb.Proofs.Text.Utf8

/-! # Lines of bytes and lines of text

    A line break is one byte in a file and one code point in its text, and no
    other code point is written with such a byte.  A file is therefore cut into
    the same lines before it is read and after it is written.

    Key theorems:
    - `byteLines_bytesOf`: the lines of what is written,
    - `decodeEscaping_byteLines`: the lines of what is read.
-/

namespace ClangDb

namespace Utf8

/-! ### Writing keeps line breaks -/

/-- The lines of a file with their endings `\n`, `\r` or `\r\n`. -/
def byteLines (bytes : List UInt8) : List (List UInt8) := Lines.cut 0x0a 0x0d bytes

/-- The line breaks at the end of a line. -/
def byteEnding (line : List UInt8) : List UInt8 := Lines.ending 0x0a 0x0d line

/-- A character is written as its number or as bytes above those of ASCII. -/
theorem toNat_of_mem_utf8EncodeChar {c : Char} {b : UInt8} (h : b ∈ String.utf8EncodeChar c) :
    b.toNat = c.val.toNat ∨ 0x80 ≤ b.toNat := by
  rw [String.utf8EncodeChar] at h
  split at h
  · next hv =>
    left
    rw [List.mem_singleton.mp h, UInt8.toNat_ofNat']
    omega
  · right
    split at h
    · simp only [List.mem_cons, List.not_mem_nil, or_false] at h
      rcases h with rfl | rfl <;> rw [UInt8.toNat_ofNat'] <;> omega
    · split at h
      · simp only [List.mem_cons, List.not_mem_nil, or_false] at h
        rcases h with rfl | rfl | rfl <;> rw [UInt8.toNat_ofNat'] <;> omega
      · simp only [List.mem_cons, List.not_mem_nil, or_false] at h
        rcases h with rfl | rfl | rfl | rfl <;> rw [UInt8.toNat_ofNat'] <;> omega

/-- A character other than a line break is written without one. -/
theorem not_mem_utf8EncodeChar {c d : Char} (hd : d.val.toNat < 0x80) (h : c ≠ d) :
    UInt8.ofNat d.val.toNat ∉ String.utf8EncodeChar c := by
  intro hm
  have hnum : (UInt8.ofNat d.val.toNat).toNat = d.val.toNat := by
    rw [UInt8.toNat_ofNat']
    omega
  rcases toNat_of_mem_utf8EncodeChar hm with hb | hb
  · rw [hnum] at hb
    exact h (Char.ext (UInt32.toNat_inj.mp hb.symm))
  · omega

/-- Writing a text keeps its line breaks and makes no others. -/
theorem spells_unitBytes {s : Text} (h : Encodable s) :
    Lines.Spells (.char '\n') (.char '\r') (0x0a : UInt8) 0x0d unitBytes s := by
  refine ⟨rfl, rfl, ?_⟩
  intro c hc hfeed hreturn
  cases c with
  | char c =>
    have hn : c ≠ '\n' := fun he => hfeed (he ▸ rfl)
    have hr : c ≠ '\r' := fun he => hreturn (he ▸ rfl)
    exact ⟨⟨not_mem_utf8EncodeChar (by decide) hn, not_mem_utf8EncodeChar (by decide) hr⟩,
      String.utf8EncodeChar_ne_nil⟩
  | lone u =>
    -- a lone code point that can be written is a byte above ASCII
    have hsome := h _ hc
    simp only [encodeUnit?] at hsome
    split at hsome
    · next hu =>
      have hnum : (UInt8.ofNat (u.val - 0x400)).toNat = u.val - 0x400 := by
        rw [UInt8.toNat_ofNat']
        omega
      have hbytes : unitBytes (.lone u) = [UInt8.ofNat (u.val - 0x400)] := by
        rw [unitBytes, encodeUnit?, if_pos hu]
        rfl
      have hne : ∀ b : UInt8, b.toNat < 0x80 → b ∉ [UInt8.ofNat (u.val - 0x400)] := by
        intro b hb hm
        rw [List.mem_singleton.mp hm, hnum] at hb
        omega
      rw [hbytes]
      exact ⟨⟨hne _ (by decide), hne _ (by decide)⟩, by simp⟩
    · cases hsome

/-- The lines of what is written are the lines of the text as they are written. -/
theorem byteLines_bytesOf {s : Text} (h : Encodable s) :
    byteLines (bytesOf s) = (Text.rawLines s).map bytesOf := by
  rw [Text.rawLines_eq_cut]
  exact Lines.cut_flatMap Text.feed_ne_return (by decide) (spells_unitBytes h)

theorem byteEnding_bytesOf {s line : Text} (h : Encodable s) (hl : line ∈ Text.rawLines s) :
    byteEnding (bytesOf line) = bytesOf (Text.splitEnding line).2 := by
  rw [Text.rawLines_eq_cut] at hl
  exact Lines.ending_flatMap Text.feed_ne_return (spells_unitBytes h) hl

/-- The lines of a file are the lines of its text as they are written. -/
theorem byteLines_eq_map (bytes : List UInt8) :
    byteLines bytes = (Text.rawLines (decodeEscaping bytes)).map bytesOf := by
  rw [← byteLines_bytesOf (encodable_decodeEscaping bytes), bytesOf_decodeEscaping]

/-- The lines of a text that can be written can be written. -/
theorem encodable_of_mem_rawLines {s : Text} (h : Encodable s) :
    ∀ line ∈ Text.rawLines s, Encodable line := by
  intro line hline c hc
  apply h c
  rw [← Text.flatten_rawLines s]
  exact List.mem_flatten.mpr ⟨line, hline, hc⟩

/-! ### Reading keeps line breaks -/

/-- After a byte of ASCII no character is partial. -/
theorem step_ascii {state : Option Partial} (h : ∀ p, state = some p → p.Completes) {b : UInt8}
    (hb : b < 0x80) : (step state b).2 = none := by
  cases state with
  | none => simp [step, first, hb]
  | some p =>
    -- what continues a character is above ASCII
    have hlow : ¬ p.low ≤ b := by
      intro hle
      have h₁ := UInt8.le_iff_toNat_le.mp (UInt8.le_trans (h p rfl).low_ge hle)
      have h₂ := UInt8.lt_iff_toNat_lt.mp hb
      omega
    simp [step, hlow, first, hb]

/-- Reading is cut after a byte of ASCII. -/
theorem piecesFrom_append {state : Option Partial} (h : ∀ p, state = some p → p.Completes)
    (a r : List UInt8) {b : UInt8} (hb : b < 0x80) :
    piecesFrom state (a ++ b :: r) = piecesFrom state (a ++ [b]) ++ piecesFrom none r := by
  induction a generalizing state with
  | nil => simp [piecesFrom, step_ascii h hb]
  | cons c a ih =>
    simp only [List.cons_append, piecesFrom]
    rw [ih (written_step h c).completes, List.append_assoc]

theorem decodeEscaping_append (a r : List UInt8) {b : UInt8} (hb : b < 0x80) :
    decodeEscaping (a ++ b :: r) = decodeEscaping (a ++ [b]) ++ decodeEscaping r := by
  rw [decodeEscaping_eq, decodeEscaping_eq, decodeEscaping_eq, pieces, pieces, pieces,
    piecesFrom_append completes_none a r hb, List.flatMap_append]

/-- Beginnings of one text that are written alike are equal. -/
theorem eq_of_bytesOf_eq {a b x y : Text} (ha : Encodable a) (hb : Encodable b)
    (h : a ++ x = b ++ y) (hbytes : bytesOf a = bytesOf b) : a = b := by
  -- the one text cannot go on behind the other, for it would be written with more bytes
  have hne : ∀ {c s}, Encodable (c :: s) → bytesOf (c :: s) ≠ [] := by
    intro c s hs hnil
    rw [bytesOf_cons] at hnil
    have hc := (List.append_eq_nil_iff.mp hnil).1
    have hsome := (encodable_cons.mp hs).1
    cases c with
    | char c => exact String.utf8EncodeChar_ne_nil hc
    | lone u =>
      simp only [unitBytes, encodeUnit?] at hc hsome
      split at hc
      · simp at hc
      · next hu => simp [hu] at hsome
  induction a generalizing b with
  | nil =>
    cases b with
    | nil => rfl
    | cons c b => exact absurd hbytes.symm (hne hb)
  | cons c a ih =>
    cases b with
    | nil => exact absurd hbytes (hne ha)
    | cons d b =>
      simp only [List.cons_append, List.cons.injEq] at h
      obtain ⟨rfl, h⟩ := h
      rw [bytesOf_cons, bytesOf_cons] at hbytes
      rw [ih (encodable_cons.mp ha).2 (encodable_cons.mp hb).2 h (List.append_cancel_left hbytes)]

/-- What ends a line is written with a byte of ASCII at its end. -/
theorem bytesOf_isEnding {e : Text} (h : Lines.IsEnding (CodePoint.char '\n') (.char '\r') e) :
    ∃ front last, bytesOf e = front ++ [last] ∧ last < 0x80 := by
  cases h with
  | feed => exact ⟨[], 0x0a, rfl, by decide⟩
  | «return» => exact ⟨[], 0x0d, rfl, by decide⟩
  | both => exact ⟨[0x0d], 0x0a, rfl, by decide⟩

/-- If a text is read back from its bytes, so is each of its lines. -/
theorem decodeEscaping_of_areLines {ls : List Text}
    (h : Lines.AreLines (CodePoint.char '\n') (.char '\r') ls) (henc : Encodable ls.flatten)
    (hdec : decodeEscaping (bytesOf ls.flatten) = ls.flatten) :
    ∀ l ∈ ls, decodeEscaping (bytesOf l) = l := by
  induction h with
  | nil => simp
  | last => simpa using hdec
  | @cons l e more _ he _ _ ih =>
    rw [List.flatten_cons] at henc hdec
    rw [encodable_append] at henc
    obtain ⟨front, last, hlast, hascii⟩ := bytesOf_isEnding he
    have hline : bytesOf (l ++ e) = (bytesOf l ++ front) ++ [last] := by
      rw [bytesOf_append, hlast, List.append_assoc]
    -- the bytes may be cut behind this line, since its ending is ASCII
    have hcut : decodeEscaping (bytesOf (l ++ e)) ++ decodeEscaping (bytesOf more.flatten) =
        (l ++ e) ++ more.flatten := by
      rw [← hdec, bytesOf_append (l ++ e) more.flatten, hline,
        ← decodeEscaping_append _ _ hascii]
      simp
    -- both sides of the cut begin one text and are written alike
    have hfirst : decodeEscaping (bytesOf (l ++ e)) = l ++ e :=
      eq_of_bytesOf_eq (encodable_decodeEscaping _) henc.1 hcut (bytesOf_decodeEscaping _)
    rw [hfirst] at hcut
    intro l' hl'
    rcases List.mem_cons.mp hl' with rfl | hl'
    · exact hfirst
    · exact ih henc.2 (List.append_cancel_left hcut) l' hl'

/-- **A file is cut into the same lines before and after it is read.** -/
theorem decodeEscaping_byteLines (bytes : List UInt8) :
    (byteLines bytes).map decodeEscaping = Text.rawLines (decodeEscaping bytes) := by
  have henc := encodable_decodeEscaping bytes
  have hflat := Text.flatten_rawLines (decodeEscaping bytes)
  have hare : Lines.AreLines (CodePoint.char '\n') (.char '\r')
      (Text.rawLines (decodeEscaping bytes)) := by
    rw [Text.rawLines_eq_cut]
    exact Lines.areLines_cut Text.feed_ne_return _
  have hlines := decodeEscaping_of_areLines hare (by rwa [hflat])
    (by rw [hflat, bytesOf_decodeEscaping])
  rw [byteLines_eq_map, List.map_map]
  exact (List.map_congr_left hlines).trans (List.map_id _)

end Utf8

end ClangDb

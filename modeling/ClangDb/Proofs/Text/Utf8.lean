import ClangDb.Text.Utf8
import Mathlib.Data.List.Infix

/-! # Bytes that are read and written back

    Reading bytes with each byte of a fragment as a code point of its own loses
    nothing: writing the text gives the bytes again.

    The reader is a state machine over bytes, so the invariant is stated of its
    states: whatever bytes complete a partial character, the character is written
    as the bytes it was read from (`Partial.Completes`).

    Key theorems:
    - `encode_eq_ok_iff`: a text is written if all its code points can be,
    - `written_step`: one byte is neither lost nor changed,
    - `encode_decodeEscaping`: the round trip,
    - `decodeReplacing_of_decode`: bytes that are UTF-8.
-/

namespace ClangDb

namespace Utf8

/-! ### The bytes of a text -/

/-- The bytes of one code point, none if it cannot be written. -/
def unitBytes (c : CodePoint) : List UInt8 := (encodeUnit? c).getD []

/-- The bytes of the code points of a text, one after another. -/
def bytesOf (s : Text) : List UInt8 := s.flatMap unitBytes

/-- Holds of a text all of whose code points can be written. -/
def Encodable (s : Text) : Prop := ∀ c ∈ s, (encodeUnit? c).isSome

@[simp] theorem bytesOf_nil : bytesOf [] = [] := rfl

theorem bytesOf_cons (c : CodePoint) (s : Text) : bytesOf (c :: s) = unitBytes c ++ bytesOf s :=
  rfl

@[simp] theorem bytesOf_append (s t : Text) : bytesOf (s ++ t) = bytesOf s ++ bytesOf t :=
  List.flatMap_append

theorem encodable_append {s t : Text} : Encodable (s ++ t) ↔ Encodable s ∧ Encodable t := by
  simp only [Encodable, List.mem_append]
  exact ⟨fun h => ⟨fun c hc => h c (.inl hc), fun c hc => h c (.inr hc)⟩,
    fun h c hc => hc.elim (h.1 c) (h.2 c)⟩

theorem encodable_cons {c : CodePoint} {s : Text} :
    Encodable (c :: s) ↔ (encodeUnit? c).isSome ∧ Encodable s := by
  simp [Encodable]

/-- Characters can always be written. -/
theorem encodable_ofString (s : String) : Encodable (Text.ofString s) := by
  intro c hc
  obtain ⟨d, _, rfl⟩ := List.mem_map.mp hc
  rfl

theorem encodeFrom_eq_ok_iff {s : Text} {n : Nat} {bytes : List UInt8} :
    encodeFrom n s = .ok bytes ↔ Encodable s ∧ bytes = bytesOf s := by
  induction s generalizing n bytes with
  | nil =>
    simp only [encodeFrom, Encodable, bytesOf_nil]
    constructor
    · rintro ⟨⟩
      exact ⟨by simp, rfl⟩
    · rintro ⟨_, rfl⟩
      rfl
  | cons c r ih =>
    rw [encodable_cons, bytesOf_cons, unitBytes, encodeFrom]
    cases hc : encodeUnit? c with
    | none => simp
    | some b =>
      cases hr : encodeFrom (n + 1) r with
      | ok more =>
        obtain ⟨hmore, rfl⟩ := ih.mp hr
        constructor
        · rintro ⟨⟩
          exact ⟨⟨rfl, hmore⟩, rfl⟩
        · rintro ⟨_, rfl⟩
          rfl
      | error e =>
        constructor
        · rintro ⟨⟩
        · rintro ⟨⟨_, hmore⟩, _⟩
          have := (ih (n := n + 1)).mpr ⟨hmore, rfl⟩
          rw [hr] at this
          cases this

/-- A text is written exactly if all of its code points can be. -/
theorem encode_eq_ok_iff {s : Text} {bytes : List UInt8} :
    encode s = .ok bytes ↔ Encodable s ∧ bytes = bytesOf s :=
  encodeFrom_eq_ok_iff

/-! ### Reading and writing back -/

/-- The text of a piece, each byte of a fragment as a code point of its own. -/
def Piece.escaped : Piece → Text
  | .char c => [.char c]
  | .fragment bytes _ => bytes.map CodePoint.ofByte

theorem decodeEscaping_eq (bytes : List UInt8) :
    decodeEscaping bytes = (pieces bytes).flatMap Piece.escaped := by
  rw [decodeEscaping]
  congr

/-- The code point of a byte that begins or continues a character is written as that byte. -/
theorem encodeUnit?_ofByte {b : UInt8} (h : 0x80 ≤ b) :
    encodeUnit? (CodePoint.ofByte b) = some [b] := by
  have hlow : 0x80 ≤ b.toNat := UInt8.le_iff_toNat_le.mp h
  have hhigh := b.toNat_lt
  have hrange : 0x480 ≤ 0x400 + b.toNat ∧ 0x400 + b.toNat < 0x500 := by omega
  simp [CodePoint.ofByte, encodeUnit?, hrange]

theorem unitBytes_ofByte {b : UInt8} (h : 0x80 ≤ b) : unitBytes (CodePoint.ofByte b) = [b] := by
  rw [unitBytes, encodeUnit?_ofByte h]
  rfl

/-- A fragment is written as it was read. -/
theorem escaped_fragment {bytes : List UInt8} (h : ∀ b ∈ bytes, 0x80 ≤ b) :
    Encodable (bytes.map CodePoint.ofByte) ∧ bytesOf (bytes.map CodePoint.ofByte) = bytes := by
  induction bytes with
  | nil => exact ⟨by simp [Encodable], rfl⟩
  | cons b r ih =>
    obtain ⟨henc, hbytes⟩ := ih fun c hc => h c (List.mem_cons_of_mem b hc)
    have hb := h b List.mem_cons_self
    rw [List.map_cons, encodable_cons, bytesOf_cons, hbytes, unitBytes_ofByte hb,
      encodeUnit?_ofByte hb]
    exact ⟨⟨rfl, henc⟩, rfl⟩

/-- The bits of a character after more bytes that continue it. -/
def bitsAfter (bits : Nat) (bytes : List UInt8) : Nat :=
  bytes.foldl (fun n b => n * 0x40 + b.toNat % 0x40) bits

/-- Holds of a partial character that, whatever bytes complete it, is written as
    the bytes it was read from.  A step only moves a byte from the one list to the
    other, so all that is to be shown is how characters begin. -/
structure Partial.Completes (p : Partial) : Prop where
  missing_pos : 0 < p.missing
  low_ge : 0x80 ≤ p.low
  read_ge : ∀ b ∈ p.read, 0x80 ≤ b
  written : ∀ b rest, p.low ≤ b → b ≤ p.high → (∀ c ∈ rest, 0x80 ≤ c ∧ c ≤ 0xbf) →
    rest.length + 1 = p.missing →
    String.utf8EncodeChar (Char.ofNat (bitsAfter p.bits (b :: rest))) =
      p.read.reverse ++ b :: rest

/-- The number of a character that is given by one. -/
theorem toNat_charOfNat {n : Nat} (h : n.isValidChar) : (Char.ofNat n).val.toNat = n := by
  have hn : n < UInt32.size := by
    rcases h with h | ⟨_, h⟩ <;> simp only [UInt32.size] <;> omega
  rw [Char.ofNat, dif_pos h]
  show (UInt32.ofNatLT n hn).toNat = n
  simp

theorem toNat_bounds {b lo hi : UInt8} (h₁ : lo ≤ b) (h₂ : b ≤ hi) :
    lo.toNat ≤ b.toNat ∧ b.toNat ≤ hi.toNat :=
  ⟨UInt8.le_iff_toNat_le.mp h₁, UInt8.le_iff_toNat_le.mp h₂⟩

theorem ofNat_eq_of_toNat {n : Nat} {b : UInt8} (h : n = b.toNat) : UInt8.ofNat n = b := by
  rw [h, UInt8.ofNat_toNat]

/-- A character of two bytes is written as it was read. -/
theorem utf8EncodeChar_two {b c : UInt8} (hb : 0xc2 ≤ b.toNat ∧ b.toNat ≤ 0xdf)
    (hc : 0x80 ≤ c.toNat ∧ c.toNat ≤ 0xbf) :
    String.utf8EncodeChar (Char.ofNat (bitsAfter (b.toNat % 0x20) [c])) = [b, c] := by
  have hn : bitsAfter (b.toNat % 0x20) [c] = b.toNat % 0x20 * 0x40 + c.toNat % 0x40 := rfl
  rw [hn, String.utf8EncodeChar]
  have hv := toNat_charOfNat (n := b.toNat % 0x20 * 0x40 + c.toNat % 0x40) (.inl (by omega))
  simp only [hv]
  rw [if_neg (by omega), if_pos (by omega), ofNat_eq_of_toNat (b := b) (by omega),
    ofNat_eq_of_toNat (b := c) (by omega)]

/-- A character of three bytes is written as it was read: the second byte keeps out long
    forms and surrogates. -/
theorem utf8EncodeChar_three {b c d : UInt8} (hb : 0xe0 ≤ b.toNat ∧ b.toNat ≤ 0xef)
    (hc : 0x80 ≤ c.toNat ∧ c.toNat ≤ 0xbf) (hd : 0x80 ≤ d.toNat ∧ d.toNat ≤ 0xbf)
    (hlong : b.toNat = 0xe0 → 0xa0 ≤ c.toNat) (hlone : b.toNat = 0xed → c.toNat ≤ 0x9f) :
    String.utf8EncodeChar (Char.ofNat (bitsAfter (b.toNat % 0x10) [c, d])) = [b, c, d] := by
  have hn : bitsAfter (b.toNat % 0x10) [c, d] =
      (b.toNat % 0x10 * 0x40 + c.toNat % 0x40) * 0x40 + d.toNat % 0x40 := rfl
  rw [hn, String.utf8EncodeChar]
  have hv := toNat_charOfNat
    (n := (b.toNat % 0x10 * 0x40 + c.toNat % 0x40) * 0x40 + d.toNat % 0x40)
    (by simp only [Nat.isValidChar]; omega)
  simp only [hv]
  rw [if_neg (by omega), if_neg (by omega), if_pos (by omega),
    ofNat_eq_of_toNat (b := b) (by omega), ofNat_eq_of_toNat (b := c) (by omega),
    ofNat_eq_of_toNat (b := d) (by omega)]

/-- A character of four bytes is written as it was read: the second byte keeps out long
    forms and numbers that are too large. -/
theorem utf8EncodeChar_four {b c d e : UInt8} (hb : 0xf0 ≤ b.toNat ∧ b.toNat ≤ 0xf4)
    (hc : 0x80 ≤ c.toNat ∧ c.toNat ≤ 0xbf) (hd : 0x80 ≤ d.toNat ∧ d.toNat ≤ 0xbf)
    (he : 0x80 ≤ e.toNat ∧ e.toNat ≤ 0xbf) (hlong : b.toNat = 0xf0 → 0x90 ≤ c.toNat)
    (hlarge : b.toNat = 0xf4 → c.toNat ≤ 0x8f) :
    String.utf8EncodeChar (Char.ofNat (bitsAfter (b.toNat % 0x08) [c, d, e])) = [b, c, d, e] := by
  have hn : bitsAfter (b.toNat % 0x08) [c, d, e] =
      ((b.toNat % 0x08 * 0x40 + c.toNat % 0x40) * 0x40 + d.toNat % 0x40) * 0x40
        + e.toNat % 0x40 := rfl
  rw [hn, String.utf8EncodeChar]
  have hv := toNat_charOfNat
    (n := ((b.toNat % 0x08 * 0x40 + c.toNat % 0x40) * 0x40 + d.toNat % 0x40) * 0x40
      + e.toNat % 0x40)
    (by simp only [Nat.isValidChar]; omega)
  simp only [hv]
  rw [if_neg (by omega), if_neg (by omega), if_neg (by omega),
    ofNat_eq_of_toNat (b := b) (by omega), ofNat_eq_of_toNat (b := c) (by omega),
    ofNat_eq_of_toNat (b := d) (by omega), ofNat_eq_of_toNat (b := e) (by omega)]

/-- A lower bound that one first byte raises. -/
theorem le_of_ite_le {b c x lo lo' : UInt8} (hlo : lo.toNat ≤ lo'.toNat)
    (h : (if b = x then lo' else lo) ≤ c) :
    lo.toNat ≤ c.toNat ∧ (b.toNat = x.toNat → lo'.toNat ≤ c.toNat) := by
  split at h
  · have := UInt8.le_iff_toNat_le.mp h
    exact ⟨hlo.trans this, fun _ => this⟩
  · next hne =>
    exact ⟨UInt8.le_iff_toNat_le.mp h, fun he => absurd (UInt8.toNat_inj.mp he) hne⟩

/-- An upper bound that one first byte lowers. -/
theorem le_of_le_ite {b c x hi hi' : UInt8} (hhi : hi'.toNat ≤ hi.toNat)
    (h : c ≤ if b = x then hi' else hi) :
    c.toNat ≤ hi.toNat ∧ (b.toNat = x.toNat → c.toNat ≤ hi'.toNat) := by
  split at h
  · have := UInt8.le_iff_toNat_le.mp h
    exact ⟨this.trans hhi, fun _ => this⟩
  · next hne =>
    exact ⟨UInt8.le_iff_toNat_le.mp h, fun he => absurd (UInt8.toNat_inj.mp he) hne⟩

/-- A character completes however its first byte begins it. -/
theorem completes_begin? {b : UInt8} {p : Partial} (h : Partial.begin? b = some p) :
    p.Completes := by
  -- a first byte is above ASCII, whichever range it is in
  have hread : ∀ {lo : UInt8}, 0x80 ≤ lo.toNat → lo ≤ b → ∀ c ∈ [b], 0x80 ≤ c := by
    intro lo hlo hb c hc
    rw [List.mem_singleton.mp hc, UInt8.le_iff_toNat_le]
    exact hlo.trans (UInt8.le_iff_toNat_le.mp hb)
  simp only [Partial.begin?] at h
  split at h
  · next hb =>
    obtain rfl := Option.some.inj h
    refine ⟨by simp, by simp, hread (by decide) hb.1, ?_⟩
    intro c rest hc₁ hc₂ _ hlen
    obtain rfl : rest = [] := List.length_eq_zero_iff.mp (by simpa using hlen)
    exact utf8EncodeChar_two (toNat_bounds hb.1 hb.2) (toNat_bounds hc₁ hc₂)
  · split at h
    · next hb =>
      obtain rfl := Option.some.inj h
      refine ⟨by simp, by split <;> simp, hread (by decide) hb.1, ?_⟩
      intro c rest hc₁ hc₂ hrest hlen
      obtain ⟨d, rfl⟩ := List.length_eq_one_iff.mp (Nat.succ.inj hlen)
      have hd := hrest d List.mem_cons_self
      obtain ⟨hlow, hlong⟩ := le_of_ite_le (by decide) hc₁
      obtain ⟨hhigh, hlone⟩ := le_of_le_ite (by decide) hc₂
      exact utf8EncodeChar_three (toNat_bounds hb.1 hb.2) ⟨hlow, hhigh⟩
        (toNat_bounds hd.1 hd.2) hlong hlone
    · split at h
      · next hb =>
        obtain rfl := Option.some.inj h
        refine ⟨by simp, by split <;> simp, hread (by decide) hb.1, ?_⟩
        intro c rest hc₁ hc₂ hrest hlen
        obtain ⟨d, e, rfl⟩ := List.length_eq_two.mp (Nat.succ.inj hlen)
        have hd := hrest d List.mem_cons_self
        have he := hrest e (List.mem_cons_of_mem d List.mem_cons_self)
        obtain ⟨hlow, hlong⟩ := le_of_ite_le (by decide) hc₁
        obtain ⟨hhigh, hlarge⟩ := le_of_le_ite (by decide) hc₂
        exact utf8EncodeChar_four (toNat_bounds hb.1 hb.2) ⟨hlow, hhigh⟩
          (toNat_bounds hd.1 hd.2) (toNat_bounds he.1 he.2) hlong hlarge
      · cases h

/-- A byte that continues a partial character moves from what completes it to what is read. -/
theorem Partial.Completes.next {p : Partial} (h : p.Completes) {b : UInt8} (hlow : p.low ≤ b)
    (hhigh : b ≤ p.high) (hmissing : ¬ p.missing ≤ 1) :
    Partial.Completes
      ⟨b :: p.read, p.bits * 0x40 + b.toNat % 0x40, p.missing - 1, 0x80, 0xbf⟩ := by
  have hb : 0x80 ≤ b := UInt8.le_trans h.low_ge hlow
  refine ⟨by simp; omega, by simp, ?_, ?_⟩
  · intro c hc
    rcases List.mem_cons.mp hc with rfl | hc
    · exact hb
    · exact h.read_ge c hc
  · intro c rest hc₁ hc₂ hrest hlen
    -- the bytes that complete the character were those with this one before them
    have hwritten := h.written b (c :: rest) hlow hhigh
      (fun d hd => (List.mem_cons.mp hd).elim (fun he => he ▸ ⟨hc₁, hc₂⟩) (hrest d))
      (by simp only [List.length_cons] at hlen ⊢; omega)
    rw [List.reverse_cons, List.append_assoc]
    exact hwritten

/-- What has been read of a partial character. -/
def readOf : Option Partial → List UInt8
  | none => []
  | some p => p.read.reverse

/-- Holds of what one byte gives: the pieces are written as the bytes that were read, up to
    those of a partial character that completes. -/
structure Written (before : List UInt8) (result : List Piece × Option Partial) : Prop where
  encodable : Encodable (result.1.flatMap Piece.escaped)
  bytes : bytesOf (result.1.flatMap Piece.escaped) ++ readOf result.2 = before
  completes : ∀ p, result.2 = some p → p.Completes

theorem written_first (b : UInt8) : Written [b] (first b) := by
  unfold first
  split
  · next hb =>
    have hb' : b.toNat < 0x80 := UInt8.lt_iff_toNat_lt.mp hb
    have hv := toNat_charOfNat (n := b.toNat) (.inl (by omega))
    refine ⟨?_, ?_, by simp⟩
    · exact encodable_cons.mpr ⟨rfl, by simp [Encodable]⟩
    · show String.utf8EncodeChar (Char.ofNat b.toNat) ++ [] ++ [] = [b]
      rw [String.utf8EncodeChar]
      simp only [hv]
      rw [if_pos (by omega), UInt8.ofNat_toNat]
      rfl
  · next hb =>
    have hb' : 0x80 ≤ b := by
      rw [UInt8.le_iff_toNat_le]
      have := mt UInt8.lt_iff_toNat_lt.mpr hb
      exact Nat.le_of_not_lt this
    split
    · next p hp =>
      refine ⟨by simp [Encodable], ?_, ?_⟩
      · show [] ++ p.read.reverse = [b]
        simp only [Partial.begin?] at hp
        split at hp
        · obtain rfl := Option.some.inj hp
          rfl
        · split at hp
          · obtain rfl := Option.some.inj hp
            rfl
          · split at hp
            · obtain rfl := Option.some.inj hp
              rfl
            · cases hp
      · intro q hq
        obtain rfl := Option.some.inj hq
        exact completes_begin? hp
    · have hread : ∀ c ∈ [b], 0x80 ≤ c := by simpa using hb'
      have hfrag := escaped_fragment hread
      refine ⟨by simpa [Piece.escaped] using hfrag.1, ?_, by simp⟩
      show bytesOf ([CodePoint.ofByte b] ++ []) ++ [] = [b]
      simpa using hfrag.2

/-- **One byte is neither lost nor changed.** -/
theorem written_step {state : Option Partial} (h : ∀ p, state = some p → p.Completes)
    (b : UInt8) : Written (readOf state ++ [b]) (step state b) := by
  cases state with
  | none => exact written_first b
  | some p =>
    have hp := h p rfl
    simp only [step]
    split
    · next hb =>
      split
      · next hmissing =>
        -- the byte completes the character
        have hwritten := hp.written b [] hb.1 hb.2 (by simp)
          (by have := hp.missing_pos; simp; omega)
        refine ⟨encodable_cons.mpr ⟨rfl, by simp [Encodable]⟩, ?_, by simp⟩
        show String.utf8EncodeChar (Char.ofNat (p.bits * 0x40 + b.toNat % 0x40)) ++ [] ++ []
          = p.read.reverse ++ [b]
        rw [List.append_nil, List.append_nil]
        exact hwritten
      · next hmissing =>
        refine ⟨by simp [Encodable], by simp [readOf], ?_⟩
        intro q hq
        obtain rfl := Option.some.inj hq
        exact hp.next hb.1 hb.2 hmissing
    · -- the byte begins anew after a fragment
      obtain ⟨henc, hbytes, hcompletes⟩ := written_first b
      have hread : ∀ c ∈ p.read.reverse, 0x80 ≤ c :=
        fun c hc => hp.read_ge c (List.mem_reverse.mp hc)
      have hfrag := escaped_fragment hread
      refine ⟨?_, ?_, hcompletes⟩
      · exact encodable_append.mpr ⟨hfrag.1, henc⟩
      · show bytesOf (p.read.reverse.map CodePoint.ofByte
            ++ (first b).1.flatMap Piece.escaped) ++ readOf (first b).2 = p.read.reverse ++ [b]
        rw [bytesOf_append, hfrag.2, List.append_assoc, hbytes]

/-- What is read after a partial character is written as it was read. -/
theorem written_piecesFrom {state : Option Partial} (h : ∀ p, state = some p → p.Completes)
    (bytes : List UInt8) :
    Encodable ((piecesFrom state bytes).flatMap Piece.escaped) ∧
      bytesOf ((piecesFrom state bytes).flatMap Piece.escaped) = readOf state ++ bytes := by
  induction bytes generalizing state with
  | nil =>
    cases state with
    | none => exact ⟨by simp [piecesFrom, Encodable], rfl⟩
    | some p =>
      have hread : ∀ c ∈ p.read.reverse, 0x80 ≤ c :=
        fun c hc => (h p rfl).read_ge c (List.mem_reverse.mp hc)
      have hfrag := escaped_fragment hread
      simpa [piecesFrom, Piece.escaped, readOf] using hfrag
  | cons b r ih =>
    obtain ⟨henc, hbytes, hcompletes⟩ := written_step h b
    obtain ⟨henc', hbytes'⟩ := ih hcompletes
    simp only [piecesFrom, List.flatMap_append]
    refine ⟨encodable_append.mpr ⟨henc, henc'⟩, ?_⟩
    rw [bytesOf_append, hbytes', ← List.append_assoc, hbytes, List.append_assoc]
    rfl

/-- Between characters nothing is partial. -/
theorem completes_none : ∀ p : Partial, none = some p → p.Completes := by
  intro p hp
  cases hp

/-- **Bytes that are read as text are written back unchanged**, whether or not they are UTF-8. -/
theorem encode_decodeEscaping (bytes : List UInt8) :
    encode (decodeEscaping bytes) = .ok bytes := by
  obtain ⟨hencodable, hbytes⟩ := written_piecesFrom completes_none bytes
  rw [encode_eq_ok_iff, decodeEscaping_eq]
  exact ⟨hencodable, hbytes.symm⟩

theorem encodable_decodeEscaping (bytes : List UInt8) : Encodable (decodeEscaping bytes) :=
  (encode_eq_ok_iff.mp (encode_decodeEscaping bytes)).1

theorem bytesOf_decodeEscaping (bytes : List UInt8) : bytesOf (decodeEscaping bytes) = bytes :=
  (encode_eq_ok_iff.mp (encode_decodeEscaping bytes)).2.symm

/-! ### Bytes that are UTF-8 -/

/-- Pieces that are read without an error are characters. -/
theorem pieces_of_decodeFrom {pieces : List Piece} {n : Nat} {s : Text}
    (h : decodeFrom n pieces = .ok s) :
    ∃ chars : List Char, pieces = chars.map .char ∧ s = chars.map .char := by
  induction pieces generalizing n s with
  | nil => exact ⟨[], rfl, (Except.ok.inj h).symm⟩
  | cons piece pieces ih =>
    cases piece with
    | fragment bytes flaw => cases h
    | char c =>
      rw [decodeFrom] at h
      split at h
      · next t ht =>
        obtain ⟨chars, rfl, rfl⟩ := ih ht
        exact ⟨c :: chars, rfl, (Except.ok.inj h).symm⟩
      · cases h

/-- Where there is no fragment nothing is replaced. -/
theorem decodeReplacing_of_decode {bytes : List UInt8} {s : Text} (h : decode bytes = .ok s) :
    decodeReplacing bytes = s := by
  obtain ⟨chars, hpieces, rfl⟩ := pieces_of_decodeFrom h
  rw [decodeReplacing, hpieces, List.map_map]
  rfl

end Utf8

end ClangDb

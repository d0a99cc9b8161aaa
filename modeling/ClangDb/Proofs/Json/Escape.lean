import ClangDb.Json.Writer
import ClangDb.Proofs.Json.Strings
import ClangDb.Proofs.Number.Digits
import Mathlib.Data.List.Chain

/-! # Written strings are read back

    A string is written unit by unit: a code point stands for itself, behind a
    backslash, or by the hexadecimal digits of its UTF-16 units.  Reading gives
    the same code points back, except that a high surrogate and a low one after
    it are taken as the two halves of one character; so a text in which a lone
    high surrogate is followed by a lone low one comes back shorter.  No text
    of characters is of this kind.

    Key theorems:
    - `hex?_hexDigits`: the digits of a unit are read as the unit,
    - `writeUnit_cases`: how a code point is written,
    - `spelled_escaped`: what is written can be read,
    - `writes_escaped`: the text between the quotes writes the string.
-/

namespace ClangDb

namespace Json

/-! ### Hexadecimal digits -/

theorem natOf?_hexDigits (width n : Nat) :
    Number.natOf? 16 (hexDigits width n) = some (n % Binary64.twoTo (4 * width)) := by
  induction width generalizing n with
  | zero =>
    show some 0 = some (n % 1)
    rw [Nat.mod_one]
  | succ width ih =>
    have hdigit : n % 16 < 16 := Nat.mod_lt _ (by omega)
    have htwoTo : Binary64.twoTo (4 * (width + 1)) = 16 * Binary64.twoTo (4 * width) := by
      rw [Nat.mul_succ, Nat.add_comm]
      exact Nat.pow_add 2 4 (4 * width)
    have hvalue : n / 16 % Binary64.twoTo (4 * width) * 16 + n % 16 =
        n % Binary64.twoTo (4 * (width + 1)) := by
      rw [htwoTo, Nat.mod_mul]
      omega
    rw [hexDigits, Number.natOf?_concat, ih, Number.digitValue?_digitChar _ hdigit]
    simp only [Option.bind_some, hdigit, if_true, hvalue]

/-- The digits of a unit are read as the unit. -/
theorem hex?_hexDigits {n : Nat} (h : n < 0x10000) : hex? (hexDigits 4 n) = some n := by
  have hbound : n < Binary64.twoTo (4 * 4) := h
  rw [hex?, natOf?_hexDigits, Nat.mod_eq_of_lt hbound]

/-- The four digits of a unit. -/
theorem hexDigits_four (n : Nat) : ∃ a b c d, hexDigits 4 n = [a, b, c, d] :=
  ⟨_, _, _, _, rfl⟩

/-! ### Code points -/

/-- Holds of the first half of a surrogate pair. -/
def IsHigh (c : CodePoint) : Prop := 0xd800 ≤ c.toNat ∧ c.toNat ≤ 0xdbff

/-- Holds of the second half of a surrogate pair. -/
def IsLow (c : CodePoint) : Prop := 0xdc00 ≤ c.toNat ∧ c.toNat ≤ 0xdfff

/-- Holds of a text without the two halves of a pair next to each other. -/
def Unpaired (s : Text) : Prop := s.IsChain fun a b => ¬ (IsHigh a ∧ IsLow b)

theorem ofNat?_toNat (c : CodePoint) : CodePoint.ofNat? c.toNat = some c := by
  cases c with
  | char c =>
    have hvalid : (CodePoint.char c).toNat.isValidChar := c.valid
    rw [CodePoint.ofNat?, dif_pos hvalid]
    rfl
  | lone u =>
    have hu := u.isLt
    have hinvalid : ¬ (CodePoint.lone u).toNat.isValidChar := by
      simp only [CodePoint.toNat, Nat.isValidChar]
      omega
    have hrange : 0xD800 ≤ (CodePoint.lone u).toNat ∧ (CodePoint.lone u).toNat < 0xE000 := by
      simp only [CodePoint.toNat]
      omega
    have hunit : (⟨(CodePoint.lone u).toNat - 0xD800, by omega⟩ : Fin 0x800) = u := by
      apply Fin.ext
      show 0xD800 + u.val - 0xD800 = u.val
      omega
    rw [CodePoint.ofNat?, dif_neg hinvalid, dif_pos hrange, hunit]

theorem unit_toNat (c : CodePoint) : unit c.toNat = c := by
  rw [unit, ofNat?_toNat]
  rfl

/-! No character is half of a pair. -/

theorem not_isHigh_char (c : Char) : ¬ IsHigh (.char c) := by
  have hvalid : c.toNat < 0xD800 ∨ 0xDFFF < c.toNat ∧ c.toNat < 0x110000 := c.valid
  simp only [IsHigh, CodePoint.toNat]
  omega

theorem not_isLow_char (c : Char) : ¬ IsLow (.char c) := by
  have hvalid : c.toNat < 0xD800 ∨ 0xDFFF < c.toNat ∧ c.toNat < 0x110000 := c.valid
  simp only [IsLow, CodePoint.toNat]
  omega

/-- Text of characters has no halves of pairs. -/
theorem unpaired_of_chars {s : Text} (h : ∀ c ∈ s, ∃ x, c = .char x) : Unpaired s := by
  induction s with
  | nil => exact List.isChain_nil
  | cons c s ih =>
    cases s with
    | nil => exact List.isChain_singleton c
    | cons d s =>
      obtain ⟨x, rfl⟩ := h c List.mem_cons_self
      refine List.isChain_cons_cons.mpr ⟨fun hpair => not_isHigh_char x hpair.1, ?_⟩
      exact ih fun e he => h e (List.mem_cons_of_mem _ he)

theorem unpaired_ofString (s : String) : Unpaired (Text.ofString s) := by
  apply unpaired_of_chars
  intro c hc
  obtain ⟨x, _, rfl⟩ := List.mem_map.mp hc
  exact ⟨x, rfl⟩

theorem toNat_lt (c : CodePoint) : c.toNat < 0x110000 := by
  cases c with
  | char c =>
    have hvalid : c.toNat < 0xD800 ∨ 0xDFFF < c.toNat ∧ c.toNat < 0x110000 := c.valid
    simp only [CodePoint.toNat]
    omega
  | lone u =>
    have hu := u.isLt
    simp only [CodePoint.toNat]
    omega

/-! ### Units -/

/-- How a code point is written: with a letter, as itself, by one unit or by two. -/
theorem writeUnit_cases (c : CodePoint) :
    (∃ d, simpleEscape? d = some c ∧ d.toNat < 0x7f ∧ writeUnit c = [.char '\\', d]) ∨
    (c ≠ .char '"' ∧ c ≠ .char '\\' ∧ (0x20 ≤ c.toNat ∧ c.toNat ≤ 0x7e) ∧ writeUnit c = [c]) ∨
    (c.toNat < 0x10000 ∧ writeUnit c = escapeUnit c.toNat) ∨
    ∃ offset, c.toNat = 0x10000 + offset ∧ offset < 0x100000 ∧
      writeUnit c = escapeUnit (0xd800 + offset / 0x400) ++ escapeUnit (0xdc00 + offset % 0x400) := by
  have hlt := toNat_lt c
  unfold writeUnit
  by_cases hquote : c = .char '"'
  · rw [if_pos hquote]
    exact .inl ⟨.char '"', by rw [hquote]; rfl, by decide, rfl⟩
  rw [if_neg hquote]
  by_cases hslash : c = .char '\\'
  · rw [if_pos hslash]
    exact .inl ⟨.char '\\', by rw [hslash]; rfl, by decide, rfl⟩
  rw [if_neg hslash]
  by_cases hn : c = .char '\n'
  · rw [if_pos hn]
    exact .inl ⟨.char 'n', by rw [hn]; rfl, by decide, rfl⟩
  rw [if_neg hn]
  by_cases hr : c = .char '\r'
  · rw [if_pos hr]
    exact .inl ⟨.char 'r', by rw [hr]; rfl, by decide, rfl⟩
  rw [if_neg hr]
  by_cases ht : c = .char '\t'
  · rw [if_pos ht]
    exact .inl ⟨.char 't', by rw [ht]; rfl, by decide, rfl⟩
  rw [if_neg ht]
  by_cases hb : c.toNat = 0x08
  · rw [if_pos hb]
    exact .inl ⟨.char 'b', by rw [← unit_toNat c, hb]; rfl, by decide, rfl⟩
  rw [if_neg hb]
  by_cases hf : c.toNat = 0x0c
  · rw [if_pos hf]
    exact .inl ⟨.char 'f', by rw [← unit_toNat c, hf]; rfl, by decide, rfl⟩
  rw [if_neg hf]
  by_cases hvisible : 0x20 ≤ c.toNat ∧ c.toNat ≤ 0x7e
  · rw [if_pos hvisible]
    exact .inr (.inl ⟨hquote, hslash, hvisible, rfl⟩)
  rw [if_neg hvisible]
  by_cases hunit : c.toNat < 0x10000
  · rw [if_pos hunit]
    exact .inr (.inr (.inl ⟨hunit, rfl⟩))
  rw [if_neg hunit]
  exact .inr (.inr (.inr ⟨c.toNat - 0x10000, by omega, by omega, rfl⟩))

/-- The code points of an escaped unit. -/
theorem escapeUnit_eq {n : Nat} (h : n < 0x10000) : ∃ a b c d, hex? [a, b, c, d] = some n ∧
    ∀ s, escapeUnit n ++ s = .char '\\' :: .char 'u' :: a :: b :: c :: d :: s := by
  obtain ⟨a, b, c, d, hdigits⟩ := hexDigits_four n
  refine ⟨a, b, c, d, by rw [← hdigits, hex?_hexDigits h], fun s => ?_⟩
  show ((.char '\\' :: .char 'u' :: hexDigits 4 n) ++ s : Text) = _
  rw [hdigits]
  rfl

variable {body s : Text} {c d : CodePoint}

/-- A code point that is written by a letter. -/
theorem Writes.letter (h : simpleEscape? d = some c) (hw : Writes body s) :
    Writes (.char '\\' :: d :: body) (c :: s) := by
  refine ⟨.simple (by rw [h]; rfl) hw.1, fun o rest => ?_⟩
  exact readString_unit [d] (by decide) (readUnit_simple h o _) (hw.2 o rest)

/-- A code point that is written as itself. -/
theorem Writes.plain (hquote : c ≠ .char '"') (hslash : c ≠ .char '\\') (hlow : 0x20 ≤ c.toNat)
    (hw : Writes body s) : Writes (c :: body) (c :: s) := by
  refine ⟨.plain hquote hslash hlow hw.1, fun o rest => ?_⟩
  have hunit : readUnit o c ([] ++ (body ++ .char '"' :: rest)) = .ok (c, 1) := by
    rw [readUnit, if_neg hslash, if_neg (by omega)]
  exact readString_unit [] hquote hunit (hw.2 o rest)

/-- A code point that is written by one unit.  What follows half of a pair is not its other
    half. -/
theorem Writes.unit {n : Nat} (hn : n < 0x10000) (hw : Writes body s)
    (hafter : 0xd800 ≤ n ∧ n ≤ 0xdbff → ∀ rest, afterHigh (body ++ .char '"' :: rest) = .other) :
    Writes (escapeUnit n ++ body) (unit n :: s) := by
  obtain ⟨a, b, c, d, hdigits, heq⟩ := escapeUnit_eq hn
  rw [heq]
  refine ⟨.hex (by rw [hdigits]; rfl) hw.1, fun o rest => ?_⟩
  have hunit : readUnit o (.char '\\')
      (.char 'u' :: a :: b :: c :: d :: (body ++ .char '"' :: rest)) = .ok (Json.unit n, 6) := by
    rw [readUnit_hex hdigits (by simp)]
    split
    · next hhigh => rw [hafter hhigh rest]
    · rfl
  exact readString_unit [.char 'u', a, b, c, d] (by decide) hunit (hw.2 o rest)

/-- A code point that is written by two units. -/
theorem Writes.pair {offset : Nat} (hoffset : offset < 0x100000) (hw : Writes body s) :
    Writes (escapeUnit (0xd800 + offset / 0x400) ++ (escapeUnit (0xdc00 + offset % 0x400) ++ body))
      (Json.unit (0x10000 + offset) :: s) := by
  have hhigh : 0xd800 + offset / 0x400 < 0x10000 ∧ 0xd800 + offset / 0x400 ≤ 0xdbff := by omega
  have hlow : 0xdc00 + offset % 0x400 < 0x10000 ∧ 0xdc00 + offset % 0x400 ≤ 0xdfff := by omega
  obtain ⟨a, b, c, d, hdigits, heq⟩ := escapeUnit_eq hhigh.1
  obtain ⟨a', b', c', d', hdigits', heq'⟩ := escapeUnit_eq hlow.1
  rw [heq, heq']
  refine ⟨.hex (by rw [hdigits]; rfl) (.hex (by rw [hdigits']; rfl) hw.1), fun o rest => ?_⟩
  have hjoined : joined (0xd800 + offset / 0x400) (0xdc00 + offset % 0x400) =
      Json.unit (0x10000 + offset) := by
    have hvalue : 0x10000 + (0xd800 + offset / 0x400 - 0xd800) * 0x400 +
        (0xdc00 + offset % 0x400 - 0xdc00) = 0x10000 + offset := by omega
    rw [joined, hvalue]
  have hunit : readUnit o (.char '\\') (.char 'u' :: a :: b :: c :: d ::
      (.char '\\' :: .char 'u' :: a' :: b' :: c' :: d' :: (body ++ .char '"' :: rest))) =
        .ok (Json.unit (0x10000 + offset), 12) := by
    rw [readUnit_hex hdigits (by simp), if_pos ⟨by omega, hhigh.2⟩,
      afterHigh_hex hdigits' (by simp), if_pos ⟨by omega, hlow.2⟩]
    simp only [hjoined]
  exact readString_unit
    [.char 'u', a, b, c, d, .char '\\', .char 'u', a', b', c', d'] (by decide) hunit (hw.2 o rest)

/-- A code point that is no second half is not taken for one. -/
theorem afterHigh_writeUnit (h : ¬ IsLow c) (hs : s ≠ []) : afterHigh (writeUnit c ++ s) = .other := by
  rcases writeUnit_cases c with ⟨d, hd, _, heq⟩ | ⟨_, hslash, _, heq⟩ | ⟨hn, heq⟩ |
    ⟨offset, _, hoffset, heq⟩
  · rw [heq]
    apply afterHigh_escape_of_ne
    rintro rfl
    rw [simpleEscape?_letter] at hd
    cases hd
  · rw [heq]
    exact afterHigh_of_ne hslash
  · obtain ⟨a, b, c', d, hdigits, happend⟩ := escapeUnit_eq hn
    have hlow : ¬ (0xdc00 ≤ c.toNat ∧ c.toNat ≤ 0xdfff) := h
    rw [heq, happend, afterHigh_hex hdigits hs, if_neg hlow]
  · obtain ⟨a, b, c', d, hdigits, happend⟩ :=
      escapeUnit_eq (show 0xd800 + offset / 0x400 < 0x10000 by omega)
    have hne : escapeUnit (0xdc00 + offset % 0x400) ++ s ≠ [] :=
      fun hnil => hs (List.append_eq_nil_iff.mp hnil).2
    rw [heq, List.append_assoc, happend, afterHigh_hex hdigits hne, if_neg (by omega)]

/-! ### Strings -/

/-- The text between the quotes of a written string. -/
def escaped (s : Text) : Text := s.flatMap writeUnit

theorem writeString_eq (s rest : Text) :
    writeString s ++ rest = .char '"' :: (escaped s ++ .char '"' :: rest) := by
  simp [writeString, escaped]

/-- A code point is written as a text that can be read. -/
theorem spelled_writeUnit (c : CodePoint) : Spelled (writeUnit c) := by
  have hunit : ∀ {n : Nat}, n < 0x10000 → Spelled (escapeUnit n) := by
    intro n hn
    obtain ⟨a, b, c, d, hdigits, heq⟩ := escapeUnit_eq hn
    have hspelled : Spelled (escapeUnit n ++ []) := by
      rw [heq]
      exact .hex (by rw [hdigits]; rfl) .nil
    rwa [List.append_nil] at hspelled
  rcases writeUnit_cases c with ⟨d, hd, _, heq⟩ | ⟨hquote, hslash, hlow, heq⟩ | ⟨hn, heq⟩ |
    ⟨offset, _, hoffset, heq⟩
  · rw [heq]
    exact .simple (by rw [hd]; rfl) .nil
  · rw [heq]
    exact .plain hquote hslash hlow.1 .nil
  · rw [heq]
    exact hunit hn
  · rw [heq]
    exact (hunit (by omega)).append (hunit (by omega))

/-- **A written string can be read**, whatever it holds. -/
theorem spelled_escaped (s : Text) : Spelled (escaped s) := by
  induction s with
  | nil => exact .nil
  | cons c s ih => exact (spelled_writeUnit c).append ih

/-- **A written string is read back**, unless it holds the halves of a pair side by side. -/
theorem writes_escaped (h : Unpaired s) : Writes (escaped s) s := by
  induction s with
  | nil => exact ⟨.nil, fun o rest => rfl⟩
  | cons c s ih =>
    have hw : Writes (escaped s) s := ih h.tail
    show Writes (writeUnit c ++ escaped s) (c :: s)
    rcases writeUnit_cases c with ⟨d, hd, _, heq⟩ | ⟨hquote, hslash, hlow, heq⟩ | ⟨hn, heq⟩ |
      ⟨offset, hc, hoffset, heq⟩
    · rw [heq]
      exact hw.letter hd
    · rw [heq]
      exact hw.plain hquote hslash hlow.1
    · rw [heq]
      have hunit := hw.unit hn fun hhigh rest => ?_
      · rwa [unit_toNat] at hunit
      · -- what comes after the first half is not the second
        cases s with
        | nil => exact afterHigh_of_ne (by decide)
        | cons d s =>
          have hnot : ¬ IsLow d := fun hd => (List.isChain_cons_cons.mp h).1 ⟨hhigh, hd⟩
          show afterHigh ((writeUnit d ++ escaped s) ++ .char '"' :: rest) = .other
          rw [List.append_assoc]
          exact afterHigh_writeUnit hnot (by simp)
    · rw [heq, List.append_assoc, ← unit_toNat c, hc]
      exact hw.pair hoffset

/-! ### The characters of a written string -/

/-- Holds of the visible characters of ASCII and the space. -/
def IsVisible (c : CodePoint) : Prop := 0x20 ≤ c.toNat ∧ c.toNat ≤ 0x7e

theorem isVisible_hexDigits (width n : Nat) : ∀ c ∈ hexDigits width n, IsVisible c := by
  have hdigit : ∀ d < 16, 0x20 ≤ (Nat.digitChar d).toNat ∧ (Nat.digitChar d).toNat ≤ 0x7e := by
    decide
  induction width generalizing n with
  | zero =>
    intro c hc
    cases hc
  | succ width ih =>
    intro c hc
    rw [hexDigits, List.mem_append] at hc
    rcases hc with hc | hc
    · exact ih _ c hc
    · rw [List.mem_singleton.mp hc]
      exact hdigit _ (Nat.mod_lt _ (by omega))

theorem isVisible_escapeUnit (n : Nat) : ∀ c ∈ escapeUnit n, IsVisible c := by
  intro c hc
  rcases List.mem_append.mp hc with hc | hc
  · have hstart : ∀ d ∈ ("\\u" : Text), IsVisible d := by
      intro d hd
      rcases List.mem_cons.mp hd with rfl | hd
      · exact ⟨by decide, by decide⟩
      · rw [List.mem_singleton.mp hd]
        exact ⟨by decide, by decide⟩
    exact hstart c hc
  · exact isVisible_hexDigits 4 n c hc

theorem isVisible_writeUnit (c : CodePoint) : ∀ d ∈ writeUnit c, IsVisible d := by
  intro d hd
  rcases writeUnit_cases c with ⟨letter, hletter, hlt, heq⟩ | ⟨_, _, hvisible, heq⟩ | ⟨_, heq⟩ |
    ⟨offset, _, _, heq⟩
  · rw [heq] at hd
    rcases List.mem_cons.mp hd with rfl | hd
    · exact ⟨by decide, by decide⟩
    · rw [List.mem_singleton.mp hd]
      exact ⟨le_of_simpleEscape? (by rw [hletter]; rfl), Nat.le_of_lt_succ hlt⟩
  · rw [heq] at hd
    rw [List.mem_singleton.mp hd]
    exact hvisible
  · rw [heq] at hd
    exact isVisible_escapeUnit _ d hd
  · rw [heq] at hd
    rcases List.mem_append.mp hd with hd | hd
    · exact isVisible_escapeUnit _ d hd
    · exact isVisible_escapeUnit _ d hd

/-- Written strings are ASCII. -/
theorem isVisible_writeString (s : Text) : ∀ c ∈ writeString s, IsVisible c := by
  have hquote : IsVisible (.char '"') := ⟨by decide, by decide⟩
  intro c hc
  rw [← List.append_nil (writeString s), writeString_eq, List.mem_cons, List.mem_append,
    List.mem_singleton] at hc
  rcases hc with rfl | hc | rfl
  · exact hquote
  · obtain ⟨d, _, hd⟩ := List.mem_flatMap.mp hc
    exact isVisible_writeUnit d c hd
  · exact hquote

end Json

end ClangDb

import ClangDb.Proofs.Json.Numeral

/-! # Digits around a point

    Digits of every script are read as those of ASCII, zeros in front included.  So
    two runs of digits with a point between them are always read as a number: the
    digits of both as one natural number, divided by a power of ten and rounded
    once.

    Key theorems:
    - `isDigits_toAscii`: digits of every script in ASCII,
    - `fraction?_point`: the number that is read.
-/

namespace ClangDb

namespace Number

open Json (IsNumeric)

variable {c : CodePoint} {s whole part : Text}

/-! ### Digits of every script -/

/-- Holds of a run of digits of any script that is not empty. -/
def IsDigitRun (s : Text) : Prop := s ≠ [] ∧ ∀ c ∈ s, c.isDigit = true

theorem digit?_char (x : Char) : (CodePoint.char x).digit? =
    (CodePoint.zeros.find? fun z => z ≤ x.toNat && x.toNat < z + 10).map (x.toNat - ·) := rfl

/-- A digit is one of ten code points that begin with a zero. -/
theorem exists_zero_of_isDigit (h : c.isDigit = true) :
    ∃ x z, c = .char x ∧ z ∈ CodePoint.zeros ∧ z ≤ x.toNat ∧ x.toNat < z + 10 ∧
      c.digit? = some (x.toNat - z) := by
  cases c with
  | lone u => cases h
  | char x =>
    rw [CodePoint.isDigit, digit?_char, Option.isSome_map] at h
    obtain ⟨z, hfind⟩ := Option.isSome_iff_exists.mp h
    have hbounds := List.find?_some hfind
    rw [Bool.and_eq_true, decide_eq_true_iff, decide_eq_true_iff] at hbounds
    refine ⟨x, z, rfl, List.mem_of_find?_eq_some hfind, hbounds.1, hbounds.2, ?_⟩
    rw [digit?_char, hfind, Option.map_some]

theorem isDigit_of_isAsciiDigit (h : isAsciiDigit c = true) : c.isDigit = true := by
  cases c with
  | lone u =>
    have hbounds := Json.isAsciiDigit_iff.mp h
    simp only [CodePoint.toNat] at hbounds
    omega
  | char x =>
    have hbounds : 0x30 ≤ x.toNat ∧ x.toNat ≤ 0x39 := Json.isAsciiDigit_iff.mp h
    rw [CodePoint.isDigit, digit?_char, Option.isSome_map, List.find?_isSome]
    refine ⟨0x30, by decide, ?_⟩
    rw [Bool.and_eq_true, decide_eq_true_iff, decide_eq_true_iff]
    omega

/-- The digits of ASCII come first, and no digit beyond ASCII is a blank. -/
theorem zeros_spec : ∀ z ∈ CodePoint.zeros, (z = 0x30 ∨ 127 ≤ z) ∧
    ∀ n ∈ CodePoint.blanks, ¬ (z ≤ n ∧ n < z + 10) := by
  decide +kernel

/-- **Digits of every script are digits in ASCII.** -/
theorem isDigits_toAscii (h : IsDigitRun s) : IsDigits (toAscii s) := by
  refine ⟨fun hnil => h.1 (List.map_eq_nil_iff.mp hnil), ?_⟩
  intro d hd
  obtain ⟨c, hc, rfl⟩ := List.mem_map.mp hd
  obtain ⟨x, z, rfl, hz, hle, hlt, hdigit⟩ := exists_zero_of_isDigit (h.2 c hc)
  obtain ⟨hfirst, hblank⟩ := zeros_spec z hz
  have hnumber : (CodePoint.char x).toNat = x.toNat := rfl
  by_cases hascii : (CodePoint.char x).toNat < 127
  · rw [if_pos hascii]
    refine Json.isAsciiDigit_iff.mpr ?_
    omega
  · have hnot : (CodePoint.char x).isBlank = false := by
      rw [Bool.eq_false_iff]
      intro hyes
      exact hblank _ (List.contains_iff_mem.mp hyes) ⟨hle, hlt⟩
    rw [if_neg hascii, hnot, if_neg (by decide), hdigit]
    exact isAsciiDigit_digitChar _ (by omega)

/-- A run of ASCII digits is a number in base ten. -/
theorem exists_natOf? (h : ∀ c ∈ s, isAsciiDigit c = true) : ∃ n, natOf? 10 s = some n := by
  induction s using List.reverseRecOn with
  | nil => exact ⟨0, rfl⟩
  | append_singleton s c ih =>
    obtain ⟨v, hv⟩ := ih fun d hd => h d (List.mem_append_left _ hd)
    have hbounds := Json.isAsciiDigit_iff.mp (h c (by simp))
    have hdigit : digitValue? c = some (c.toNat - 0x30) := by
      unfold digitValue?
      rw [if_pos]
      rw [Bool.and_eq_true, decide_eq_true_iff, decide_eq_true_iff]
      exact hbounds
    have hsmall : c.toNat - 0x30 < 10 := by omega
    refine ⟨v * 10 + (c.toNat - 0x30), ?_⟩
    rw [natOf?_concat, hv, hdigit]
    simp only [Option.bind_some, hsmall, if_true]

/-! ### A point between digits -/

theorem toAscii_append (a b : Text) : toAscii (a ++ b) = toAscii a ++ toAscii b :=
  List.map_append

theorem isNumeric_point (hwhole : IsDigits whole) (hpart : IsDigits part) :
    ∀ c ∈ whole ++ .char '.' :: part, IsNumeric c := by
  intro c hc
  rcases List.mem_append.mp hc with hc | hc
  · exact .inl (hwhole.2 c hc)
  · rcases List.mem_cons.mp hc with rfl | hc
    · exact .inr (.inr (.inr (.inl rfl)))
    · exact .inl (hpart.2 c hc)

theorem decimal?_point (hwhole : IsDigits whole) (hpart : IsDigits part) :
    ∃ n, natOf? 10 (whole ++ part) = some n ∧
      decimal? false (whole ++ .char '.' :: part) =
        some (.ofDecimal false n (-(part.length : Int))) := by
  obtain ⟨n, hn⟩ := exists_natOf? (hwhole.append hpart.2).2
  refine ⟨n, hn, ?_⟩
  have hpoint : isAsciiDigit (.char '.') = false := by decide
  have htaken : (whole ++ .char '.' :: part).takeWhile isAsciiDigit = whole := by
    rw [List.takeWhile_append_of_pos hwhole.2, List.takeWhile_cons_of_neg (by simp [hpoint]),
      List.append_nil]
  have hleft : (whole ++ .char '.' :: part).dropWhile isAsciiDigit = .char '.' :: part := by
    rw [List.dropWhile_append_of_pos hwhole.2, List.dropWhile_cons_of_neg (by simp [hpoint])]
  have hdigits : part.takeWhile isAsciiDigit = part := List.takeWhile_eq_self_iff.mpr hpart.2
  have hend : part.dropWhile isAsciiDigit = [] := List.dropWhile_eq_nil_iff.mpr hpart.2
  have hne : (whole.isEmpty && part.isEmpty) = false := by simp [hwhole.1]
  unfold decimal?
  simp only [htaken, hleft, hdigits, hend, hne, hn, bind, Option.bind_some, Bool.false_eq_true,
    if_false]

/-- **Digits, a point and digits are read as a number**: the digits of both sides in base ten,
    over the power of ten for the second. -/
theorem fraction?_point (hwhole : IsDigitRun whole) (hpart : IsDigitRun part) :
    ∃ n, natOf? 10 (toAscii whole ++ toAscii part) = some n ∧
      fraction? (whole ++ "." ++ part) = some (.ofDecimal false n (-(part.length : Int))) := by
  have hw := isDigits_toAscii hwhole
  have hp := isDigits_toAscii hpart
  obtain ⟨n, hn, hdecimal⟩ := decimal?_point hw hp
  refine ⟨n, hn, ?_⟩
  have hlength : (toAscii part).length = part.length := List.length_map _
  have hascii : toAscii (whole ++ "." ++ part) = toAscii whole ++ .char '.' :: toAscii part := by
    rw [toAscii_append, toAscii_append, List.append_assoc]
    rfl
  have hnumeric := isNumeric_point hw hp
  have hcore : core (whole ++ "." ++ part) = toAscii whole ++ .char '.' :: toAscii part := by
    rw [core, hascii, Json.trimBoth_eq_self hnumeric]
  cases hfirst : toAscii whole with
  | nil => exact absurd hfirst hw.1
  | cons c r =>
    have hc : isAsciiDigit c = true := hw.2 c (by rw [hfirst]; exact List.mem_cons_self)
    rw [hfirst] at hcore hnumeric hdecimal
    rw [List.cons_append] at hcore hnumeric hdecimal
    rw [Json.fraction?_eq_decimal? hcore hnumeric (Json.sign_of_isAsciiDigit hc _) hc, hdecimal,
      hlength]

/-- Digits of ASCII stand for themselves. -/
theorem toAscii_eq_self (h : IsDigits s) : toAscii s = s := by
  have hmap : toAscii s = s.map id := by
    apply List.map_congr_left
    intro c hc
    have hbounds := Json.isAsciiDigit_iff.mp (h.2 c hc)
    exact if_pos (by omega)
  rw [hmap, List.map_id]

end Number

end ClangDb

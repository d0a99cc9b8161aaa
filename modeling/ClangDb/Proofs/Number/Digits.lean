import ClangDb.Number.Reading
import ClangDb.Number.Shortest
import ClangDb.Proofs.Text.Occurrence
import Mathlib.Data.List.DropRight

/-! # Digits

    A natural number is written in base ten without zeros in front, and its
    digits are read as the number again.  The shortest decimal of a positive
    number has a digit that is no zero, so its digits do not vanish when the
    zeros at their end are left out.

    Key theorems:
    - `natOf?_ofNat`: digits are read as the number that they write,
    - `shortest_pos`: the shortest decimal of a positive number is positive,
    - `isDigits_significant`: its digits without the zeros at the end.
-/

namespace ClangDb

namespace Number

/-- Holds of a run of digits that is not empty. -/
def IsDigits (s : Text) : Prop := s ≠ [] ∧ ∀ c ∈ s, isAsciiDigit c = true

theorem IsDigits.append {s t : Text} (hs : IsDigits s) (ht : ∀ c ∈ t, isAsciiDigit c = true) :
    IsDigits (s ++ t) := by
  refine ⟨fun h => hs.1 (List.append_eq_nil_iff.mp h).1, fun c hc => ?_⟩
  rcases List.mem_append.mp hc with hc | hc
  · exact hs.2 c hc
  · exact ht c hc

theorem IsDigits.take {s : Text} {count : Nat} (hs : IsDigits s) (hcount : 0 < count) :
    IsDigits (s.take count) := by
  refine ⟨fun hnil => ?_, fun c hc => hs.2 c (List.mem_of_mem_take hc)⟩
  rcases List.take_eq_nil_iff.mp hnil with h | h
  · omega
  · exact hs.1 h

theorem IsDigits.drop {s : Text} {count : Nat} (hs : IsDigits s) (hne : s.drop count ≠ []) :
    IsDigits (s.drop count) := ⟨hne, fun c hc => hs.2 c (List.mem_of_mem_drop hc)⟩

/-- A run of zeros is a run of digits. -/
theorem isAsciiDigit_zeros (count : Nat) :
    ∀ c ∈ Binary64.zeros count, isAsciiDigit c = true := by
  intro c hc
  rw [List.eq_of_mem_replicate hc]
  decide

/-- Digits may be filled up with zeros in front. -/
theorem IsDigits.padded {s : Text} (hs : IsDigits s) (count : Nat) :
    IsDigits (Binary64.zeros count ++ s) := by
  refine ⟨fun hnil => hs.1 (List.append_eq_nil_iff.mp hnil).2, fun c hc => ?_⟩
  rcases List.mem_append.mp hc with hc | hc
  · exact isAsciiDigit_zeros count c hc
  · exact hs.2 c hc

theorem isAsciiDigit_digitChar :
    ∀ d < 10, isAsciiDigit (.char (Nat.digitChar d)) = true := by
  decide

theorem digitValue?_digitChar :
    ∀ d < 16, digitValue? (.char (Nat.digitChar d)) = some d := by
  decide

theorem natOf?_concat (base : Nat) (s : Text) (c : CodePoint) :
    natOf? base (s ++ [c]) = (natOf? base s).bind fun v =>
      (digitValue? c).bind fun d => if d < base then some (v * base + d) else none := by
  unfold natOf?
  rw [List.foldl_append]
  rfl

/-! ### Natural numbers -/

theorem ofNat_of_lt {n : Nat} (h : n < 10) : Text.ofNat n = [.char (Nat.digitChar n)] := by
  rw [Text.ofNat, Nat.toDigits_of_lt_base h]
  rfl

/-- The last digit of a number and those before it. -/
theorem ofNat_of_le {n : Nat} (h : 10 ≤ n) :
    Text.ofNat n = Text.ofNat (n / 10) ++ [.char (Nat.digitChar (n % 10))] := by
  rw [Text.ofNat, Nat.toDigits_of_base_le (by omega) h, List.map_append]
  rfl

theorem isDigits_ofNat (n : Nat) : IsDigits (Text.ofNat n) := by
  induction n using Nat.strongRecOn with
  | ind n ih =>
    by_cases h : n < 10
    · rw [ofNat_of_lt h]
      refine ⟨List.cons_ne_nil _ _, fun c hc => ?_⟩
      rw [List.mem_singleton.mp hc]
      exact isAsciiDigit_digitChar n h
    · rw [ofNat_of_le (by omega)]
      refine (ih (n / 10) (by omega)).append fun c hc => ?_
      rw [List.mem_singleton.mp hc]
      exact isAsciiDigit_digitChar _ (Nat.mod_lt _ (by omega))

/-- Digits are read as the number that they write. -/
theorem natOf?_ofNat (n : Nat) : natOf? 10 (Text.ofNat n) = some n := by
  induction n using Nat.strongRecOn with
  | ind n ih =>
    by_cases h : n < 10
    · rw [ofNat_of_lt h, ← List.nil_append [_], natOf?_concat, digitValue?_digitChar n (by omega)]
      show (if n < 10 then some (0 * 10 + n) else none) = some n
      rw [if_pos h, Nat.zero_mul, Nat.zero_add]
    · have hdigit : n % 10 < 10 := Nat.mod_lt _ (by omega)
      have hvalue : n / 10 * 10 + n % 10 = n := by omega
      rw [ofNat_of_le (by omega), natOf?_concat, ih (n / 10) (by omega),
        digitValue?_digitChar _ (by omega)]
      simp only [Option.bind_some, hdigit, if_true, hvalue]

/-- No zero comes first, unless the number is zero. -/
theorem head?_ofNat {n : Nat} (h : n ≠ 0) : (Text.ofNat n).head? ≠ some (.char '0') := by
  induction n using Nat.strongRecOn with
  | ind n ih =>
    by_cases hlt : n < 10
    · rw [ofNat_of_lt hlt]
      have hdigit : ∀ d < 10, d ≠ 0 → Nat.digitChar d ≠ '0' := by decide
      intro hzero
      exact hdigit n hlt h (CodePoint.char.inj (Option.some.inj hzero))
    · rw [ofNat_of_le (by omega), List.head?_append_of_ne_nil _ (isDigits_ofNat _).1]
      exact ih (n / 10) (by omega) (by omega)

end Number

namespace Binary64

open Number

/-! ### The shortest decimal -/

/-- Holds of a decimal whose digits do not all vanish. -/
def Decimal.IsPositive (d : Decimal) : Prop := d.digits ≠ 0

theorem ofDecimal_zero (e : Int) : ofDecimal false 0 e = .finite false 0 minExponent := by
  rw [ofDecimal, if_pos (.inl rfl)]
  rfl

/-- What reads back as a number that is no zero has digits. -/
theorem isPositive_of_onGrid? {m : Nat} {q : Int} {num den : Nat} {e : Int} {d : Decimal}
    (hm : m ≠ 0) (h : onGrid? (.finite false m q) num den e = some d) : d.IsPositive := by
  have hdigits : ∀ n, ofDecimal false n e = .finite false m q → n ≠ 0 := by
    rintro _ hn rfl
    rw [ofDecimal_zero] at hn
    exact hm (Binary64.finite.inj hn).2.1.symm
  have htried : ∃ nearest other, onGrid? (.finite false m q) num den e =
      if ofDecimal false nearest e = .finite false m q then some ⟨nearest, e⟩
      else if ofDecimal false other e = .finite false m q then some ⟨other, e⟩ else none :=
    ⟨_, _, rfl⟩
  obtain ⟨nearest, other, htried⟩ := htried
  rw [htried] at h
  split at h
  · next hn =>
    obtain rfl := Option.some.inj h
    exact hdigits _ hn
  · split at h
    · next hn =>
      obtain rfl := Option.some.inj h
      exact hdigits _ hn
    · cases h

theorem le_divHalfEven (n d : Nat) : n / d ≤ divHalfEven n d := by
  simp only [divHalfEven]
  split <;> omega

/-- The last grid is fine enough for a digit. -/
theorem isPositive_firstGrid {m : Nat} {q : Int} {num den : Nat} (hm : m ≠ 0) (top : Int)
    (count : Nat)
    (hlast : 0 < (scaleTen num den (top - count)).2 ∧
      (scaleTen num den (top - count)).2 ≤ (scaleTen num den (top - count)).1) :
    (firstGrid (.finite false m q) num den top count).IsPositive := by
  induction count generalizing top with
  | zero =>
    simp only [Int.natCast_zero, Int.sub_zero] at hlast
    have hquotient := Nat.div_pos hlast.2 hlast.1
    have hle := le_divHalfEven (scaleTen num den top).1 (scaleTen num den top).2
    show divHalfEven (scaleTen num den top).1 (scaleTen num den top).2 ≠ 0
    omega
  | succ count ih =>
    show ((onGrid? (.finite false m q) num den top).getD _).IsPositive
    cases hgrid : onGrid? (.finite false m q) num den top with
    | some d => exact isPositive_of_onGrid? hm hgrid
    | none =>
      have htop : top - 1 - (count : Int) = top - ((count + 1 : Nat) : Int) := by omega
      exact ih (top - 1) (by rwa [htop])

theorem tenTo_pos (n : Nat) : 0 < tenTo n := Nat.pow_pos (by omega)

theorem tenTo_add (m n : Nat) : tenTo (m + n) = tenTo m * tenTo n := Nat.pow_add _ _ _

theorem tenTo_le {m n : Nat} (h : m ≤ n) : tenTo m ≤ tenTo n := Nat.pow_le_pow_right (by omega) h

/-- A number is not below the power of ten that its digits give. -/
theorem tenTo_le_of_length {n count : Nat} (hn : 0 < n)
    (hcount : (Nat.toDigits 10 n).length = count + 1) : tenTo count ≤ n := by
  by_contra hlt
  cases count with
  | zero => exact hlt hn
  | succ count =>
    have hle := (Nat.length_toDigits_le_iff (by omega) (by omega)).mpr (not_le.mp hlt)
    omega

/-- A number that is not too small reaches the last grid that is tried for it. -/
theorem scaleTen_le {num den : Nat} (hden : 0 < den) (hnum : den ≤ num * tenTo 400) :
    0 < (scaleTen num den (pointOf num den - 1 - 17)).2 ∧
      (scaleTen num den (pointOf num den - 1 - 17)).2 ≤
        (scaleTen num den (pointOf num den - 1 - 17)).1 := by
  -- the digits of the scaled number
  obtain ⟨n, hn⟩ : ∃ n, num * tenTo 400 / den = n := ⟨_, rfl⟩
  obtain ⟨count, hcount⟩ : ∃ count, (Nat.toDigits 10 n).length = count + 1 :=
    Nat.exists_eq_succ_of_ne_zero (Nat.pos_iff_ne_zero.mp Nat.length_toDigits_pos)
  have hpos : 0 < n := by
    rw [← hn]
    exact Nat.div_pos hnum hden
  have hdigits : tenTo count ≤ n := tenTo_le_of_length hpos hcount
  have hscaled : den * tenTo count ≤ num * tenTo 400 := by
    calc den * tenTo count ≤ den * n := Nat.mul_le_mul_left _ hdigits
      _ ≤ num * tenTo 400 := by
        rw [← hn]
        exact Nat.mul_div_le _ _
  have hpoint : pointOf num den - 1 - 17 = (count : Int) - 417 := by
    rw [pointOf, hn, hcount]
    omega
  -- the denominator is scaled up, or the numerator is
  rw [hpoint, scaleTen]
  by_cases hsign : 0 ≤ (count : Int) - 417
  · rw [if_pos hsign]
    obtain ⟨more, rfl⟩ : ∃ more, count = more + 417 := ⟨count - 417, by omega⟩
    have hmore : ((more + 417 : Nat) : Int) - 417 = (more : Nat) := by omega
    rw [hmore, Int.toNat_natCast]
    refine ⟨Nat.mul_pos hden (tenTo_pos _), ?_⟩
    apply Nat.le_of_mul_le_mul_right _ (tenTo_pos 400)
    calc den * tenTo more * tenTo 400 = den * tenTo (more + 400) := by
          rw [Nat.mul_assoc, tenTo_add]
      _ ≤ den * tenTo (more + 417) := Nat.mul_le_mul_left _ (tenTo_le (by omega))
      _ ≤ num * tenTo 400 := hscaled
  · rw [if_neg hsign]
    obtain ⟨more, hmore⟩ : ∃ more : Nat, -((count : Int) - 417) = more :=
      ⟨417 - count, by omega⟩
    have hsum : more + count = 417 := by omega
    rw [hmore, Int.toNat_natCast]
    refine ⟨hden, ?_⟩
    apply Nat.le_of_mul_le_mul_right _ (tenTo_pos count)
    calc den * tenTo count ≤ num * tenTo 400 := hscaled
      _ ≤ num * tenTo 417 := Nat.mul_le_mul_left _ (tenTo_le (by omega))
      _ = num * tenTo more * tenTo count := by rw [Nat.mul_assoc, ← tenTo_add, hsum]

theorem twoTo_pos (n : Nat) : 0 < twoTo n := Nat.pow_pos (by omega)

theorem twoTo_le {m n : Nat} (h : m ≤ n) : twoTo m ≤ twoTo n := Nat.pow_le_pow_right (by omega) h

theorem twoTo_le_tenTo (n : Nat) : twoTo (3 * n) ≤ tenTo n := by
  show 2 ^ (3 * n) ≤ 10 ^ n
  rw [Nat.pow_mul]
  exact Nat.pow_le_pow_left (by omega) n

/-- No finite number is too small. -/
theorem scale_le {m : Nat} {q : Int} (hm : m ≠ 0) (hq : minExponent ≤ q) :
    0 < (scale m 1 (-q)).2 ∧ (scale m 1 (-q)).2 ≤ (scale m 1 (-q)).1 * tenTo 400 := by
  have hpos : 0 < m := Nat.pos_iff_ne_zero.mpr hm
  unfold minExponent at hq
  unfold scale
  split
  · refine ⟨Nat.mul_pos Nat.one_pos (twoTo_pos _), ?_⟩
    rw [Nat.one_mul]
    calc twoTo (-q).toNat ≤ twoTo (3 * 400) := twoTo_le (by omega)
      _ ≤ tenTo 400 := twoTo_le_tenTo 400
      _ ≤ m * tenTo 400 := Nat.le_mul_of_pos_left _ hpos
  · exact ⟨Nat.one_pos, Nat.mul_pos (Nat.mul_pos hpos (twoTo_pos _)) (tenTo_pos _)⟩

/-- **The shortest decimal of a positive number is positive.** -/
theorem shortest_pos {m : Nat} {q : Int} (hm : m ≠ 0) (hq : minExponent ≤ q) :
    (shortest m q).IsPositive := by
  obtain ⟨hden, hnum⟩ := scale_le hm hq
  exact isPositive_firstGrid hm _ 17 (scaleTen_le hden hnum)

/-- The digits of a positive decimal without the zeros at the end. -/
theorem isDigits_significant {d : Decimal} (hd : d.IsPositive) :
    IsDigits d.significant ∧ d.significant.head? ≠ some (.char '0') := by
  have hhead := head?_ofNat hd
  have hdigits := isDigits_ofNat d.digits
  have hbegins : d.significant <+: Text.ofNat d.digits := List.rdropWhile_prefix _ _
  have hne : d.significant ≠ [] := by
    intro hnil
    -- the first digit stays
    have hall := List.rdropWhile_eq_nil_iff.mp hnil
    cases hfirst : Text.ofNat d.digits with
    | nil => exact hdigits.1 hfirst
    | cons c r =>
      rw [hfirst] at hhead
      have hc := hall c (by rw [hfirst]; exact List.mem_cons_self)
      exact hhead (congrArg some (of_decide_eq_true hc))
  refine ⟨⟨hne, fun c hc => hdigits.2 c (hbegins.subset hc)⟩, ?_⟩
  obtain ⟨zeros, hzeros⟩ := hbegins
  rw [← hzeros, List.head?_append_of_ne_nil _ hne] at hhead
  exact hhead

end Binary64

end ClangDb

import ClangDb.Json.Writer
import ClangDb.Proofs.Json.Atoms
import ClangDb.Proofs.Number.Digits

/-! # Written numbers are read back

    A numeral is a number as a document writes it: a sign, digits without zeros
    in front, and perhaps a fraction and an exponent.  The reader takes it up to
    where it ends, and what it is read as depends on its digits alone.  Integers
    and numbers are written as numerals, a number always with a fraction or an
    exponent, so that it does not come back as an integer.

    Key theorems:
    - `Numeral.readNumber_eq`: a numeral is read up to its end,
    - `Numeral.fraction?_eq`: its text is read as a number in the same way,
    - `readAtom_int`, `readAtom_number`: what is written is read back.
-/

namespace ClangDb

namespace Json

open Number (IsDigits isAsciiDigit)

/-- A number as a document writes it. -/
structure Numeral where
  negative : Bool
  whole : Text
  fraction : Text
  exponent : Text
  whole_digits : IsDigits whole
  whole_head : whole = "0" ∨ whole.head? ≠ some (.char '0')
  fraction_digits : fraction = [] ∨ ∃ ds, IsDigits ds ∧ fraction = .char '.' :: ds
  exponent_digits : exponent = [] ∨ ∃ sign ds, (sign = '+' ∨ sign = '-') ∧ IsDigits ds ∧
    exponent = .char 'e' :: .char sign :: ds

namespace Numeral

/-- The text behind the sign. -/
def magnitude (n : Numeral) : Text := n.whole ++ n.fraction ++ n.exponent

/-- The text of a sign. -/
def signText (negative : Bool) : Text := if negative then [.char '-'] else []

/-- The text of a numeral. -/
def toText (n : Numeral) : Text := signText n.negative ++ n.magnitude

end Numeral

/-- Holds of what follows a numeral: nothing that could belong to it. -/
def EndsNumeral (r : Text) : Prop :=
  ∀ c ∈ r.head?, isAsciiDigit c = false ∧ c ≠ .char '.' ∧ c ≠ .char 'e' ∧ c ≠ .char 'E'

variable {r s ds : Text} {n : Numeral}

/-! ### Reading the parts -/

/-- Digits are cut off where they end. -/
theorem digits_append (hds : ∀ c ∈ ds, isAsciiDigit c = true)
    (hr : ∀ c ∈ r.head?, isAsciiDigit c = false) : digits (ds ++ r) = (ds, r) := by
  have hend : r.takeWhile isAsciiDigit = [] ∧ r.dropWhile isAsciiDigit = r := by
    cases r with
    | nil => exact ⟨rfl, rfl⟩
    | cons c r =>
      have hc := hr c rfl
      exact ⟨by simp [hc], by simp [hc]⟩
  rw [digits_eq, List.takeWhile_append_of_pos hds, List.dropWhile_append_of_pos hds, hend.1, hend.2,
    List.append_nil]

theorem isAsciiDigit_iff {c : CodePoint} :
    isAsciiDigit c = true ↔ 0x30 ≤ c.toNat ∧ c.toNat ≤ 0x39 := by
  simp [isAsciiDigit]

theorem ne_of_isAsciiDigit {c : CodePoint} {x : Char} (hc : isAsciiDigit c = true)
    (hx : isAsciiDigit (.char x) = false) : c ≠ .char x := by
  rintro rfl
  rw [hx] at hc
  cases hc

theorem wholePart_append (n : Numeral) (hr : ∀ c ∈ r.head?, isAsciiDigit c = false) :
    wholePart (n.whole ++ r) = (n.whole, r) := by
  rcases n.whole_head with hzero | hhead
  · rw [hzero]
    rfl
  · -- the first digit is no zero, so all digits are taken
    have hdigits := digits_append n.whole_digits.2 hr
    cases hwhole : n.whole with
    | nil => exact absurd hwhole n.whole_digits.1
    | cons c ds =>
      have hc : c ≠ .char '0' := by
        rintro rfl
        exact hhead (by rw [hwhole]; rfl)
      rw [hwhole] at hdigits
      unfold wholePart
      split
      · next heq => exact absurd (List.cons.inj heq).1 hc
      · exact hdigits

theorem fractionPart_append (n : Numeral)
    (hr : ∀ c ∈ r.head?, isAsciiDigit c = false ∧ c ≠ .char '.') :
    fractionPart (n.fraction ++ r) = (n.fraction, r) := by
  rcases n.fraction_digits with hnil | ⟨ds, hds, hfraction⟩
  · rw [hnil, List.nil_append]
    unfold fractionPart
    split
    · exact absurd rfl (hr _ rfl).2
    · rfl
  · have hdigits := digits_append hds.2 fun c hc => (hr c hc).1
    rw [hfraction]
    simp only [List.cons_append, fractionPart, hdigits]
    cases ds with
    | nil => exact absurd rfl hds.1
    | cons d ds => rfl

theorem exponentPart_append (n : Numeral) (hr : EndsNumeral r) :
    exponentPart (n.exponent ++ r) = (n.exponent, r) := by
  rcases n.exponent_digits with hnil | ⟨sign, ds, hsign, hds, hexponent⟩
  · rw [hnil, List.nil_append]
    cases r with
    | nil => rfl
    | cons c r =>
      obtain ⟨_, _, he, hE⟩ := hr c rfl
      cases c with
      | lone u => rfl
      | char x =>
        have hx : ¬ (x = 'e' ∨ x = 'E') := by
          rintro (rfl | rfl)
          · exact he rfl
          · exact hE rfl
        rw [exponentPart_cons, if_neg hx]
  · have hdigits := digits_append hds.2 fun c hc => (hr c hc).1
    have hpart : signPart (.char sign :: (ds ++ r)) = ([.char sign], ds ++ r) := by
      rcases hsign with rfl | rfl <;> rfl
    rw [hexponent, List.cons_append, exponentPart_cons, if_pos (.inl rfl), List.cons_append, hpart]
    simp only [hdigits]
    cases ds with
    | nil => exact absurd rfl hds.1
    | cons d ds => rfl

/-- What stands behind the fraction of a numeral. -/
theorem head?_exponent (n : Numeral) (hr : EndsNumeral r) :
    ∀ c ∈ (n.exponent ++ r).head?, isAsciiDigit c = false ∧ c ≠ .char '.' := by
  intro c hc
  rcases n.exponent_digits with hnil | ⟨sign, ds, _, _, hexponent⟩
  · rw [hnil] at hc
    exact ⟨(hr c hc).1, (hr c hc).2.1⟩
  · rw [hexponent] at hc
    obtain rfl := Option.some.inj hc
    decide

/-- What stands behind the whole digits of a numeral. -/
theorem head?_fraction (n : Numeral) (hr : EndsNumeral r) :
    ∀ c ∈ (n.fraction ++ (n.exponent ++ r)).head?, isAsciiDigit c = false := by
  intro c hc
  rcases n.fraction_digits with hnil | ⟨ds, _, hfraction⟩
  · rw [hnil] at hc
    exact (head?_exponent n hr c hc).1
  · rw [hfraction] at hc
    obtain rfl := Option.some.inj hc
    decide

/-- The first digit of a numeral. -/
theorem Numeral.whole_cons (n : Numeral) : ∃ c ds, n.whole = c :: ds ∧ isAsciiDigit c = true := by
  cases hwhole : n.whole with
  | nil => exact absurd hwhole n.whole_digits.1
  | cons c ds => exact ⟨c, ds, rfl, n.whole_digits.2 c (by rw [hwhole]; exact List.mem_cons_self)⟩

/-- The text behind the sign begins with a digit. -/
theorem Numeral.magnitude_cons (n : Numeral) :
    ∃ c t, n.magnitude = c :: t ∧ isAsciiDigit c = true := by
  obtain ⟨c, ds, hwhole, hc⟩ := n.whole_cons
  rw [magnitude, hwhole]
  exact ⟨c, _, rfl, hc⟩

/-! ### Reading a numeral -/

theorem minusPart_append (n : Numeral) (t : Text) :
    minusPart (Numeral.signText n.negative ++ (n.whole ++ t)) =
      (Numeral.signText n.negative, n.whole ++ t) := by
  cases n.negative with
  | true => rfl
  | false =>
    obtain ⟨c, ds, hwhole, hc⟩ := n.whole_cons
    have hminus : c ≠ .char '-' := ne_of_isAsciiDigit hc (by decide)
    rw [hwhole]
    unfold minusPart
    split
    · next heq => exact absurd (List.cons.inj heq).1 hminus
    · rfl

/-- **A numeral is read up to its end.** -/
theorem Numeral.readNumber_eq (n : Numeral) (hr : EndsNumeral r) :
    readNumber (n.toText ++ r) =
      if n.fraction.isEmpty && n.exponent.isEmpty then
        match Number.decimalInteger n.negative n.whole with
        | some (.ok k) => .ok (.int k, r)
        | some (.error _) => .error (.tooLong n.whole.length)
        | none => stop .value (n.toText ++ r)
      else match Number.decimal? n.negative n.magnitude with
        | some x => .ok (.number x, r)
        | none => stop .value (n.toText ++ r) := by
  have hsplit : n.toText ++ r =
      signText n.negative ++ (n.whole ++ (n.fraction ++ (n.exponent ++ r))) := by
    simp [toText, magnitude]
  have hminus : minusPart (n.toText ++ r) =
      (signText n.negative, n.whole ++ (n.fraction ++ (n.exponent ++ r))) := by
    rw [hsplit, minusPart_append]
  have hwhole := wholePart_append n (head?_fraction n hr)
  have hnegative : (!(signText n.negative).isEmpty) = n.negative := by cases n.negative <;> rfl
  have hne : n.whole.isEmpty = false := by
    obtain ⟨c, ds, h, _⟩ := n.whole_cons
    rw [h]
    rfl
  rw [Json.readNumber_eq, hminus]
  simp only [hnegative, hwhole, readParts, hne, fractionPart_append n (head?_exponent n hr),
    exponentPart_append n hr, magnitude]
  rfl

theorem dropStart?_cons_of_ne {p c : CodePoint} {pat : Text} (h : p ≠ c) :
    Text.dropStart? (p :: pat) (c :: s) = none :=
  if_neg h

/-- No word begins with a digit, nor with a sign and a digit. -/
theorem words_spec : ∀ word ∈ words, ∃ x pat, word.1 = .char x :: pat ∧
    isAsciiDigit (.char x) = false ∧
    (x = '-' → ∃ y more, pat = .char y :: more ∧ isAsciiDigit (.char y) = false) := by
  intro word hword
  simp only [words, List.mem_cons, List.not_mem_nil, or_false] at hword
  rcases hword with rfl | rfl | rfl | rfl | rfl | rfl
  · exact ⟨'n', _, rfl, by decide, fun h => absurd h (by decide)⟩
  · exact ⟨'t', _, rfl, by decide, fun h => absurd h (by decide)⟩
  · exact ⟨'f', _, rfl, by decide, fun h => absurd h (by decide)⟩
  · exact ⟨'N', _, rfl, by decide, fun h => absurd h (by decide)⟩
  · exact ⟨'I', _, rfl, by decide, fun h => absurd h (by decide)⟩
  · exact ⟨'-', _, rfl, by decide, fun _ => ⟨'I', _, rfl, by decide⟩⟩

theorem readWord?_numeral (n : Numeral) (r : Text) : readWord? (n.toText ++ r) = none := by
  obtain ⟨c, t, ht, hc⟩ := n.magnitude_cons
  rw [readWord?, List.findSome?_eq_none_iff]
  intro word hword
  obtain ⟨x, pat, heq, hx, hminus⟩ := words_spec word hword
  have hne : CodePoint.char x ≠ c := (ne_of_isAsciiDigit hc hx).symm
  rw [Option.map_eq_none_iff, heq, Numeral.toText, List.append_assoc, ht]
  cases n.negative with
  | false => exact dropStart?_cons_of_ne hne
  | true =>
    show Text.dropStart? (.char x :: pat) (.char '-' :: c :: (t ++ r)) = none
    -- a word may share the sign, and then goes on with a letter
    by_cases hsign : x = '-'
    · obtain ⟨y, more, rfl, hy⟩ := hminus hsign
      subst hsign
      show (if CodePoint.char '-' = .char '-' then
        Text.dropStart? (.char y :: more) (c :: (t ++ r)) else none) = none
      rw [if_pos rfl]
      exact dropStart?_cons_of_ne (ne_of_isAsciiDigit hc hy).symm
    · exact dropStart?_cons_of_ne fun h => hsign (CodePoint.char.inj h)

/-- A numeral is read as an integer if it has digits in front of its point only. -/
theorem Numeral.readAtom_int {k : Int} (hfraction : n.fraction = []) (hexponent : n.exponent = [])
    (hk : Number.decimalInteger n.negative n.whole = some (.ok k)) (hr : EndsNumeral r) :
    readAtom (n.toText ++ r) = .ok (.int k, r) := by
  simp only [readAtom, readWord?_numeral, n.readNumber_eq hr, hfraction, hexponent, hk]
  rfl

/-- A numeral with a fraction or an exponent is read as a number. -/
theorem Numeral.readAtom_number {x : Binary64} (hparts : n.fraction ≠ [] ∨ n.exponent ≠ [])
    (hx : Number.decimal? n.negative n.magnitude = some x) (hr : EndsNumeral r) :
    readAtom (n.toText ++ r) = .ok (.number x, r) := by
  have hempty : (n.fraction.isEmpty && n.exponent.isEmpty) = false := by
    rcases hparts with h | h
    · simp [h]
    · simp [h]
  simp only [readAtom, readWord?_numeral, n.readNumber_eq hr, hempty, hx]
  rfl

/-! ### The text of a numeral -/

/-- Holds of the code points of numerals. -/
def IsNumeric (c : CodePoint) : Prop :=
  isAsciiDigit c = true ∨ c = .char '-' ∨ c = .char '+' ∨ c = .char '.' ∨ c = .char 'e'

theorem Numeral.isNumeric (n : Numeral) : ∀ c ∈ n.toText, IsNumeric c := by
  intro c hc
  rw [toText, magnitude, List.mem_append, List.mem_append, List.mem_append] at hc
  rcases hc with hc | (hc | hc) | hc
  · cases hn : n.negative with
    | true =>
      rw [hn] at hc
      exact .inr (.inl (List.mem_singleton.mp hc))
    | false =>
      rw [hn] at hc
      cases hc
  · exact .inl (n.whole_digits.2 c hc)
  · rcases n.fraction_digits with hnil | ⟨ds, hds, hfraction⟩
    · rw [hnil] at hc
      cases hc
    · rw [hfraction] at hc
      rcases List.mem_cons.mp hc with rfl | hc
      · exact .inr (.inr (.inr (.inl rfl)))
      · exact .inl (hds.2 c hc)
  · rcases n.exponent_digits with hnil | ⟨sign, ds, hsign, hds, hexponent⟩
    · rw [hnil] at hc
      cases hc
    · rw [hexponent] at hc
      rcases List.mem_cons.mp hc with rfl | hc
      · exact .inr (.inr (.inr (.inr rfl)))
      · rcases List.mem_cons.mp hc with rfl | hc
        · rcases hsign with rfl | rfl
          · exact .inr (.inr (.inl rfl))
          · exact .inr (.inl rfl)
        · exact .inl (hds.2 c hc)

/-- What is numeric is no blank, no underscore, and stands for itself. -/
theorem IsNumeric.spec {c : CodePoint} (h : IsNumeric c) :
    c.toNat < 127 ∧ c.isPlainBlank = false ∧ c ≠ .char '_' := by
  rcases h with h | rfl | rfl | rfl | rfl
  · have hbounds := isAsciiDigit_iff.mp h
    refine ⟨by omega, ?_, ne_of_isAsciiDigit h (by decide)⟩
    have hspace : c ≠ .char ' ' := ne_of_isAsciiDigit h (by decide)
    simp only [CodePoint.isPlainBlank, hspace, decide_false, Bool.false_or, Bool.and_eq_false_iff,
      decide_eq_false_iff_not]
    omega
  all_goals decide

theorem dropWhile_of_not {p : CodePoint → Bool} (h : ∀ c ∈ s, p c = false) : s.dropWhile p = s := by
  cases s with
  | nil => rfl
  | cons c s => simp [h c List.mem_cons_self]

theorem trimBoth_eq_self (h : ∀ c ∈ s, IsNumeric c) : s.trimBoth CodePoint.isPlainBlank = s := by
  have hblank : ∀ c ∈ s, c.isPlainBlank = false := fun c hc => (h c hc).spec.2.1
  have hreverse : ∀ c ∈ s.reverse, c.isPlainBlank = false :=
    fun c hc => hblank c (List.mem_reverse.mp hc)
  rw [Text.trimBoth, dropWhile_of_not hblank, Text.trimRight, dropWhile_of_not hreverse,
    List.reverse_reverse]

theorem core_eq_self (h : ∀ c ∈ s, IsNumeric c) : Number.core s = s := by
  have hascii : Number.toAscii s = s := by
    have hmap : Number.toAscii s = s.map id :=
      List.map_congr_left fun c hc => if_pos (h c hc).spec.1
    rw [hmap, List.map_id]
  rw [Number.core, hascii, trimBoth_eq_self h]

theorem withoutUnderscores?_eq_self {isDigit : CodePoint → Bool} (after : Bool)
    (h : ∀ c ∈ s, IsNumeric c) : Number.withoutUnderscores? isDigit after s = some s := by
  induction s generalizing after with
  | nil => rfl
  | cons c s ih =>
    rw [Number.withoutUnderscores?, if_neg (h c List.mem_cons_self).spec.2.2,
      ih _ fun d hd => h d (List.mem_cons_of_mem _ hd)]
    rfl

/-- A digit is no sign. -/
theorem sign_of_isAsciiDigit {c : CodePoint} (hc : isAsciiDigit c = true) (r : Text) :
    Number.sign (c :: r) = (false, c :: r) := by
  unfold Number.sign
  split
  · next heq => exact absurd (List.cons.inj heq).1 (ne_of_isAsciiDigit hc (by decide))
  · next heq => exact absurd (List.cons.inj heq).1 (ne_of_isAsciiDigit hc (by decide))
  · rfl

theorem sign_numeral (n : Numeral) : Number.sign n.toText = (n.negative, n.magnitude) := by
  obtain ⟨c, t, ht, hc⟩ := n.magnitude_cons
  rw [Numeral.toText, ht]
  cases n.negative with
  | true => rfl
  | false => exact sign_of_isAsciiDigit hc t

/-- A digit has no other case. -/
theorem lower_of_isAsciiDigit {c : CodePoint} (h : isAsciiDigit c = true) : Number.lower c = c := by
  cases c with
  | lone u => rfl
  | char x =>
    have hbounds : 0x30 ≤ x.toNat ∧ x.toNat ≤ 0x39 := isAsciiDigit_iff.mp h
    have hcase : ¬ (x.val ≥ 'A'.val ∧ x.val ≤ 'Z'.val) := by
      rintro ⟨hle, _⟩
      have hle := UInt32.le_iff_toNat_le.mp hle
      have hval : x.val.toNat = x.toNat := rfl
      have hA : 'A'.val.toNat = 65 := rfl
      omega
    show CodePoint.char x.toLower = .char x
    exact congrArg CodePoint.char (dif_neg hcase)

/-- What is numeric and begins with a digit behind its sign is read as a decimal. -/
theorem fraction?_eq_decimal? {t : Text} {negative : Bool} {c : CodePoint}
    (hcore : Number.core s = t) (hnumeric : ∀ c ∈ t, IsNumeric c)
    (hsign : Number.sign t = (negative, c :: r)) (hc : isAsciiDigit c = true) :
    Number.fraction? s = Number.decimal? negative (c :: r) := by
  -- a word does not begin with a digit
  have hword : ∀ (x : Char) (more : Text), isAsciiDigit (.char x) = false →
      (c :: r).map Number.lower ≠ .char x :: more := by
    intro x more hx heq
    rw [List.map_cons, lower_of_isAsciiDigit hc] at heq
    exact ne_of_isAsciiDigit hc hx (List.cons.inj heq).1
  have hinf : ¬ ((c :: r).map Number.lower = ("inf" : Text) ∨
      (c :: r).map Number.lower = ("infinity" : Text)) := by
    rintro (h | h)
    · exact hword 'i' _ (by decide) h
    · exact hword 'i' _ (by decide) h
  have hnan : (c :: r).map Number.lower ≠ ("nan" : Text) := hword 'n' _ (by decide)
  simp only [Number.fraction?, hcore, withoutUnderscores?_eq_self false hnumeric, hsign, bind,
    Option.bind, if_neg hinf, if_neg hnan]

/-- **The text of a numeral is read as a number in the same way.** -/
theorem Numeral.fraction?_eq (n : Numeral) :
    Number.fraction? n.toText = Number.decimal? n.negative n.magnitude := by
  obtain ⟨c, t, ht, hc⟩ := n.magnitude_cons
  have hsign := sign_numeral n
  rw [ht] at hsign
  rw [fraction?_eq_decimal? (core_eq_self n.isNumeric) n.isNumeric hsign hc, ht]

/-! ### Integers -/

/-- The numeral of an integer. -/
def Numeral.ofInt (k : Int) : Numeral where
  negative := k < 0
  whole := Text.ofNat k.natAbs
  fraction := []
  exponent := []
  whole_digits := Number.isDigits_ofNat _
  whole_head := by
    by_cases hk : k.natAbs = 0
    · rw [hk]
      exact .inl rfl
    · exact .inr (Number.head?_ofNat hk)
  fraction_digits := .inl rfl
  exponent_digits := .inl rfl

theorem Numeral.toText_ofInt (k : Int) : (Numeral.ofInt k).toText = Text.ofInt k := by
  have hmagnitude : (Numeral.ofInt k).magnitude = Text.ofNat k.natAbs := by
    simp [magnitude, ofInt]
  rw [toText, hmagnitude]
  cases k with
  | ofNat k => rfl
  | negSucc k =>
    have hnegative : (Numeral.ofInt (.negSucc k)).negative = true :=
      decide_eq_true (Int.negSucc_lt_zero k)
    rw [hnegative]
    rfl

/-- Digits are read as an integer as long as there are not too many. -/
theorem decimalInteger_ofNat (negative : Bool) {k : Nat}
    (hk : (Text.ofNat k).length ≤ Number.digitLimit) :
    Number.decimalInteger negative (Text.ofNat k) = some (.ok (if negative then -k else k)) := by
  have hne : (Text.ofNat k).isEmpty = false := by
    simpa using (Number.isDigits_ofNat k).1
  have hlimit : ¬ Number.digitLimit < (Text.ofNat k).length := not_lt.mpr hk
  simp only [Number.decimalInteger, Number.natOf?_ofNat, hne, hlimit, bind, Option.bind_some]
  rfl

/-- **A written integer is read back.** -/
theorem readAtom_int {k : Int} (hk : (Text.ofNat k.natAbs).length ≤ Number.digitLimit)
    (hr : EndsNumeral r) : readAtom (Text.ofInt k ++ r) = .ok (.int k, r) := by
  rw [← Numeral.toText_ofInt]
  refine Numeral.readAtom_int rfl rfl ?_ hr
  show Number.decimalInteger (decide (k < 0)) (Text.ofNat k.natAbs) = some (.ok k)
  rw [decimalInteger_ofNat _ hk]
  have hvalue : (if decide (k < 0) = true then -(k.natAbs : Int) else k.natAbs) = k := by
    split
    · next h =>
      have := of_decide_eq_true h
      omega
    · next h =>
      have := of_decide_eq_false (Bool.not_eq_true _ ▸ h)
      omega
  rw [hvalue]

/-! ### Numbers -/

open Binary64 (Layout Decimal zeros)

/-- A positive decimal is laid out as a numeral with a fraction or an exponent. -/
theorem exists_numeral_decimal (l : Layout) {d : Decimal} (hd : d.IsPositive) (negative : Bool) :
    ∃ n : Numeral, n.negative = negative ∧ n.magnitude = l.decimal d ∧
      (n.fraction ≠ [] ∨ n.exponent ≠ []) := by
  obtain ⟨hds, hhead⟩ := Binary64.isDigits_significant hd
  have hpoint : IsDigits (.char '0' :: ([] : Text)) := ⟨by simp, by decide⟩
  unfold Layout.decimal
  generalize d.significant = ds at hds hhead
  generalize ((Text.ofNat d.digits).length : Int) + d.exponent = point
  simp only
  split
  · split
    · -- all digits stand behind the point
      have hfraction : IsDigits (zeros (-point).toNat ++ ds) := hds.padded _
      refine ⟨⟨negative, "0", .char '.' :: (zeros (-point).toNat ++ ds), [], hpoint, .inl rfl,
        .inr ⟨_, hfraction, rfl⟩, .inl rfl⟩, rfl, ?_, .inl (by simp)⟩
      simp [Numeral.magnitude, Text.ofString]
    · next hpositive =>
      -- the point stands among the digits, or behind zeros that follow them
      have hcount : 0 < point.toNat := by omega
      have hwhole := (hds.take hcount).append
        (Number.isAsciiDigit_zeros (point.toNat - (ds.take point.toNat).length))
      have hfraction : IsDigits (if (ds.drop point.toNat).isEmpty then zeros 1
          else ds.drop point.toNat) := by
        split
        · exact hpoint
        · next hne => exact hds.drop (by simpa using hne)
      refine ⟨⟨negative, _, .char '.' :: _, [], hwhole, .inr ?_, .inr ⟨_, hfraction, rfl⟩, .inl rfl⟩,
        rfl, ?_, .inl (by simp)⟩
      · rw [List.head?_append_of_ne_nil _ (hds.take hcount).1, List.head?_take, if_neg (by omega)]
        exact hhead
      · simp [Numeral.magnitude, Text.ofString]
  · -- one digit stands before the point, and an exponent follows
    have hwhole := hds.take Nat.one_pos
    have hexponent : IsDigits (zeros (l.exponentWidth - (Text.ofNat (point - 1).natAbs).length) ++
        Text.ofNat (point - 1).natAbs) := (Number.isDigits_ofNat _).padded _
    have hsign : (if point - 1 < 0 then '-' else '+') = '+' ∨
        (if point - 1 < 0 then '-' else '+') = '-' := by
      split
      · exact .inr rfl
      · exact .inl rfl
    have hfraction : (if (ds.drop 1).isEmpty then [] else .char '.' :: ds.drop 1) = [] ∨
        ∃ more, IsDigits more ∧
          (if (ds.drop 1).isEmpty then [] else .char '.' :: ds.drop 1) = .char '.' :: more := by
      split
      · exact .inl rfl
      · next hne => exact .inr ⟨_, hds.drop (by simpa using hne), rfl⟩
    refine ⟨⟨negative, ds.take 1, _, l.exponent (point - 1), hwhole, .inr ?_, hfraction,
      .inr ⟨_, _, hsign, hexponent, rfl⟩⟩, rfl, ?_, .inr (by simp [Layout.exponent])⟩
    · rw [List.head?_take, if_neg (by omega)]
      exact hhead
    · simp [Numeral.magnitude]

/-- A finite number is written as a numeral with a fraction or an exponent. -/
theorem exists_numeral_number {x : Binary64} (hx : x.IsFinite) :
    ∃ n : Numeral, n.toText = numberLayout.number x ∧ (n.fraction ≠ [] ∨ n.exponent ≠ []) := by
  cases x with
  | nan => exact absurd hx id
  | infinite negative => exact absurd hx id
  | finite negative m q =>
    obtain ⟨n, hnegative, hmagnitude, hparts⟩ : ∃ n : Numeral, n.negative = negative ∧
        n.magnitude = (if m = 0 then numberLayout.decimal ⟨0, 0⟩
          else numberLayout.decimal (Binary64.shortest m q)) ∧
        (n.fraction ≠ [] ∨ n.exponent ≠ []) := by
      split
      · have hdigits : IsDigits (.char '0' :: ([] : Text)) := ⟨by simp, by decide⟩
        exact ⟨⟨negative, "0", [.char '.', .char '0'], [], hdigits, .inl rfl,
          .inr ⟨_, hdigits, rfl⟩, .inl rfl⟩, rfl, rfl, .inl (List.cons_ne_nil _ _)⟩
      · next hm => exact exists_numeral_decimal _ (Binary64.shortest_pos hm hx.2.1) negative
    refine ⟨n, ?_, hparts⟩
    rw [Numeral.toText, hmagnitude, hnegative]
    rfl

/-- Holds of a number that is read as it was printed; of those that are not finite, the words
    for them are. -/
def IsPrinted : Binary64 → Prop
  | .finite negative m q => (Binary64.finite negative m q).IsFinite ∧
      Number.fraction? (numberLayout.number (.finite negative m q)) = some (.finite negative m q)
  | _ => True

/-- **A written number is read back** if reading gives the number that was printed. -/
theorem readAtom_number {x : Binary64} (hx : IsPrinted x) (hr : EndsNumeral r) :
    readAtom (numberLayout.number x ++ r) = .ok (.number x, r) := by
  cases x with
  | nan => rfl
  | infinite negative => cases negative <;> rfl
  | finite negative m q =>
    obtain ⟨hfinite, hread⟩ := hx
    obtain ⟨n, htext, hparts⟩ := exists_numeral_number hfinite
    rw [← htext, n.fraction?_eq] at hread
    rw [← htext]
    exact Numeral.readAtom_number hparts hread hr

end Json

end ClangDb

import ClangDb.Json.Reader
import ClangDb.Proofs.Text.Occurrence
import Mathlib.Data.List.TakeDrop
import Mathlib.Data.List.TakeWhile

/-! # Words and numbers

    A value that is no string and no container is a word or a number.  Its text
    holds no quote, so what is read at the head of a text is decided before the
    first quote: replacing what stands from there on changes nothing but what is
    left over.

    Key theorems:
    - `readAtom_spec`: the code points of an atom,
    - `readAtom_append`: an atom does not depend on what follows the first quote.
-/

namespace ClangDb

namespace Json

/-- Reads a word or a number. -/
def readAtom (s : Text) : Except Stop (Json × Text) :=
  match readWord? s with
  | some found => .ok found
  | none => readNumber s

/-- Holds of a code point that neither opens nor closes anything. -/
def IsAtomic (c : CodePoint) : Prop :=
  c ≠ .char '"' ∧ c ≠ .char '[' ∧ c ≠ .char ']' ∧ c ≠ .char '\x7b' ∧ c ≠ .char '\x7d'

instance : DecidablePred IsAtomic := fun _ => inferInstanceAs (Decidable (_ ∧ _ ∧ _ ∧ _ ∧ _))

/-- Holds of a text that is empty or begins with a quote. -/
def Closed (y : Text) : Prop := ∀ c ∈ y.head?, c = .char '"'

/-! ### Parts of a text -/

/-- Holds of a way to cut a text after atomic code points that does not look past a quote. -/
structure Cuts (f : Text → Text × Text) : Prop where
  eq : ∀ s, (f s).1 ++ (f s).2 = s
  atomic : ∀ s, ∀ c ∈ (f s).1, IsAtomic c
  append : ∀ q y, Closed y → f (q ++ y) = ((f q).1, (f q).2 ++ y)

theorem isAtomic_of_digit {c : CodePoint} (h : Number.isAsciiDigit c = true) : IsAtomic c := by
  simp only [Number.isAsciiDigit, Bool.and_eq_true, decide_eq_true_eq] at h
  refine ⟨?_, ?_, ?_, ?_, ?_⟩ <;>
  · rintro rfl
    exact absurd h (by decide)

theorem digits_eq (s : Text) :
    digits s = (s.takeWhile Number.isAsciiDigit, s.dropWhile Number.isAsciiDigit) :=
  List.span_eq_takeWhile_dropWhile _ _

theorem cuts_digits : Cuts digits where
  eq s := by rw [digits_eq, List.takeWhile_append_dropWhile]
  atomic s c hc := by
    rw [digits_eq] at hc
    exact isAtomic_of_digit (List.mem_takeWhile_imp hc)
  append q y hy := by
    rw [digits_eq, digits_eq]
    induction q with
    | nil =>
      cases y with
      | nil => rfl
      | cons c y =>
        have hc : c = .char '"' := hy c rfl
        -- a quote ends the digits
        have hdigit : Number.isAsciiDigit (.char '"') = false := by decide
        simp [hc, hdigit]
    | cons c q ih =>
      by_cases hc : Number.isAsciiDigit c = true
      · simpa [hc] using ih
      · simp [hc]

theorem cuts_fractionPart : Cuts fractionPart where
  eq s := by
    unfold fractionPart
    split
    · next r =>
      split
      · rfl
      · next ds rest _ hd =>
        have := cuts_digits.eq r
        rw [hd] at this
        simpa using this
    · rfl
  atomic s c hc := by
    unfold fractionPart at hc
    split at hc
    · next r =>
      split at hc
      · simp at hc
      · next ds rest _ hd =>
        rcases List.mem_cons.mp hc with rfl | hc
        · decide
        · exact cuts_digits.atomic r c (by rwa [hd])
    · simp at hc
  append q y hy := by
    cases q with
    | nil =>
      cases y with
      | nil => rfl
      | cons c y =>
        obtain rfl : c = .char '"' := hy c rfl
        rfl
    | cons c q =>
      -- only a point begins a fraction
      by_cases hc : c = .char '.'
      · subst hc
        have hd := cuts_digits.append q y hy
        simp only [List.cons_append, fractionPart, hd]
        cases hq : digits q with
        | mk ds rest => cases ds <;> rfl
      · unfold fractionPart
        simp [hc]

/-- The sign at the head, and the rest. -/
def signPart : Text → Text × Text
  | .char '+' :: r => ([.char '+'], r)
  | .char '-' :: r => ([.char '-'], r)
  | s => ([], s)

theorem cuts_signPart : Cuts signPart where
  eq s := by
    unfold signPart
    split <;> rfl
  atomic s c hc := by
    unfold signPart at hc
    split at hc
    · rw [List.mem_singleton.mp hc]
      decide
    · rw [List.mem_singleton.mp hc]
      decide
    · simp at hc
  append q y hy := by
    cases q with
    | nil =>
      cases y with
      | nil => rfl
      | cons c y =>
        obtain rfl : c = .char '"' := hy c rfl
        rfl
    | cons c q =>
      by_cases hplus : c = .char '+'
      · subst hplus
        rfl
      · by_cases hminus : c = .char '-'
        · subst hminus
          rfl
        · unfold signPart
          simp [hplus, hminus]

theorem exponentPart_cons (x : Char) (r : Text) :
    exponentPart (.char x :: r) =
      if x = 'e' ∨ x = 'E' then
        match digits (signPart r).2 with
        | ([], _) => ([], .char x :: r)
        | (ds, rest) => (.char x :: (signPart r).1 ++ ds, rest)
      else ([], .char x :: r) := by
  cases r with
  | nil => rfl
  | cons c r =>
    by_cases hplus : c = .char '+'
    · subst hplus
      rfl
    · by_cases hminus : c = .char '-'
      · subst hminus
        rfl
      · simp only [exponentPart, signPart]
        split
        · cases hd : digits (c :: r) with
          | mk ds rest => cases ds <;> simp [hplus, hminus, hd]
        · rfl

theorem cuts_exponentPart : Cuts exponentPart where
  eq s := by
    cases s with
    | nil => rfl
    | cons c r =>
      cases c with
      | lone u => rfl
      | char x =>
        rw [exponentPart_cons]
        split
        · split
          · rfl
          · next ds rest _ hd =>
            have hsign := cuts_signPart.eq r
            have hdigits := cuts_digits.eq (signPart r).2
            rw [hd] at hdigits
            simp only at hdigits
            rw [List.append_assoc, hdigits, List.cons_append, hsign]
        · rfl
  atomic s c hc := by
    cases s with
    | nil => simp [exponentPart] at hc
    | cons d r =>
      cases d with
      | lone u => simp [exponentPart] at hc
      | char x =>
        rw [exponentPart_cons] at hc
        split at hc
        · next hx =>
          split at hc
          · simp at hc
          · next ds rest _ hd =>
            rw [List.mem_append, List.mem_cons] at hc
            rcases hc with (rfl | hc) | hc
            · rcases hx with rfl | rfl <;> decide
            · exact cuts_signPart.atomic r c hc
            · exact cuts_digits.atomic _ c (by rwa [hd])
        · simp at hc
  append q y hy := by
    cases q with
    | nil =>
      cases y with
      | nil => rfl
      | cons c y =>
        obtain rfl : c = .char '"' := hy c rfl
        rfl
    | cons c q =>
      cases c with
      | lone u => rfl
      | char x =>
        rw [List.cons_append, exponentPart_cons, exponentPart_cons]
        -- what follows the letter is cut at the same places with and without the quote
        by_cases hx : x = 'e' ∨ x = 'E'
        · rw [if_pos hx, if_pos hx, cuts_signPart.append q y hy]
          simp only
          rw [cuts_digits.append _ y hy]
          cases digits (signPart q).2 with
          | mk ds rest => cases ds <;> rfl
        · rw [if_neg hx, if_neg hx]
          rfl

/-! ### Numbers -/

/-- The minus at the head, and the rest. -/
def minusPart : Text → Text × Text
  | .char '-' :: r => ([.char '-'], r)
  | s => ([], s)

/-- The digits of a whole number at the head, and the rest; a zero stands alone. -/
def wholePart : Text → Text × Text
  | .char '0' :: r => ([.char '0'], r)
  | s => digits s

theorem cuts_minusPart : Cuts minusPart where
  eq s := by
    unfold minusPart
    split <;> rfl
  atomic s c hc := by
    unfold minusPart at hc
    split at hc
    · rw [List.mem_singleton.mp hc]
      decide
    · simp at hc
  append q y hy := by
    cases q with
    | nil =>
      cases y with
      | nil => rfl
      | cons c y =>
        obtain rfl : c = .char '"' := hy c rfl
        rfl
    | cons c q =>
      by_cases hc : c = .char '-'
      · subst hc
        rfl
      · unfold minusPart
        simp [hc]

theorem cuts_wholePart : Cuts wholePart where
  eq s := by
    unfold wholePart
    split
    · rfl
    · exact cuts_digits.eq s
  atomic s c hc := by
    unfold wholePart at hc
    split at hc
    · rw [List.mem_singleton.mp hc]
      decide
    · exact cuts_digits.atomic s c hc
  append q y hy := by
    cases q with
    | nil =>
      cases y with
      | nil => rfl
      | cons c y =>
        obtain rfl : c = .char '"' := hy c rfl
        rfl
    | cons c q =>
      by_cases hc : c = .char '0'
      · subst hc
        rfl
      · have hdigits := cuts_digits.append (c :: q) y hy
        unfold wholePart
        simpa [hc] using hdigits

/-- Reads a number whose parts after the minus are given. -/
def readParts (s : Text) (negative : Bool) (parts : Text × Text) : Except Stop (Json × Text) :=
  let (whole, r) := parts
  if whole.isEmpty then stop .value s
  else
    let (fraction, r) := fractionPart r
    let (exponent, r) := exponentPart r
    if fraction.isEmpty && exponent.isEmpty then
      match Number.decimalInteger negative whole with
      | some (.ok n) => .ok (.int n, r)
      | some (.error _) => .error (.tooLong whole.length)
      | none => stop .value s
    else match Number.decimal? negative (whole ++ fraction ++ exponent) with
      | some x => .ok (.number x, r)
      | none => stop .value s

/-- Whether a minus comes first, and what follows it. -/
def signOf (s : Text) : Bool × Text :=
  match s with
  | .char '-' :: r => (true, r)
  | r => (false, r)

theorem signOf_eq (s : Text) : signOf s = (!(minusPart s).1.isEmpty, (minusPart s).2) := by
  unfold signOf minusPart
  split <;> rfl

theorem readNumber_eq (s : Text) :
    readNumber s =
      readParts s (!(minusPart s).1.isEmpty) (wholePart (minusPart s).2) := by
  have hsign : readNumber s = readParts s (signOf s).1 (wholePart (signOf s).2) := rfl
  rw [hsign, signOf_eq]

/-- What is read in parts is cut off before a quote. -/
theorem readParts_append (s : Text) (negative : Bool) (whole q : Text) {y : Text}
    (hy : Closed y) :
    readParts s negative (whole, q ++ y) =
      (readParts s negative (whole, q)).map fun found => (found.1, found.2 ++ y) := by
  simp only [readParts, cuts_fractionPart.append q y hy, cuts_exponentPart.append _ y hy]
  split
  · rfl
  · split
    · cases Number.decimalInteger negative whole with
      | none => rfl
      | some n => cases n <;> rfl
    · cases Number.decimal? negative
        (whole ++ (fractionPart q).1 ++ (exponentPart (fractionPart q).2).1) <;> rfl

/-- The text that is kept for a refusal does not matter to a number. -/
theorem readParts_congr {s s' : Text} {negative : Bool} {parts : Text × Text}
    {found : Json × Text} (h : readParts s negative parts = .ok found) :
    readParts s' negative parts = .ok found := by
  simp only [readParts] at h ⊢
  split
  · next hw =>
    rw [if_pos hw] at h
    cases h
  · next hw =>
    rw [if_neg hw] at h
    split
    · next hf =>
      rw [if_pos hf] at h
      cases hn : Number.decimalInteger negative parts.1 with
      | none => simp [hn, stop] at h
      | some n =>
        cases n with
        | ok n => simpa [hn] using h
        | error e => simp [hn] at h
    · next hf =>
      rw [if_neg hf] at h
      split at h
      · exact h
      · cases h

/-- A number is a text of atomic code points, and what follows them. -/
theorem readNumber_spec {s r : Text} {v : Json} (h : readNumber s = .ok (v, r)) :
    ∃ p, p ≠ [] ∧ s = p ++ r ∧ ∀ c ∈ p, IsAtomic c := by
  rw [readNumber_eq] at h
  have hminus := cuts_minusPart.eq s
  have hwhole := cuts_wholePart.eq (minusPart s).2
  have hfraction := cuts_fractionPart.eq (wholePart (minusPart s).2).2
  have hexponent := cuts_exponentPart.eq (fractionPart (wholePart (minusPart s).2).2).2
  have hrest : (wholePart (minusPart s).2).1 ≠ [] ∧
      (exponentPart (fractionPart (wholePart (minusPart s).2).2).2).2 = r := by
    simp only [readParts] at h
    split at h
    · cases h
    · next hw =>
      refine ⟨fun he => hw (by simp [he]), ?_⟩
      split at h
      · split at h
        · exact (Prod.mk.inj (Except.ok.inj h)).2
        · cases h
        · cases h
      · split at h
        · exact (Prod.mk.inj (Except.ok.inj h)).2
        · cases h
  refine ⟨(minusPart s).1 ++ ((wholePart (minusPart s).2).1 ++
    ((fractionPart (wholePart (minusPart s).2).2).1 ++
      (exponentPart (fractionPart (wholePart (minusPart s).2).2).2).1)), ?_, ?_, ?_⟩
  · simp [hrest.1]
  · rw [← hrest.2]
    simp only [List.append_assoc]
    rw [hexponent, hfraction, hwhole, hminus]
  · intro c hc
    simp only [List.mem_append] at hc
    rcases hc with hc | hc | hc | hc
    · exact cuts_minusPart.atomic _ c hc
    · exact cuts_wholePart.atomic _ c hc
    · exact cuts_fractionPart.atomic _ c hc
    · exact cuts_exponentPart.atomic _ c hc

/-- A number does not depend on what follows the first quote. -/
theorem readNumber_append {q y y' : Text} (hy : Closed y) (hy' : Closed y') {v : Json} {r : Text}
    (h : readNumber (q ++ y) = .ok (v, r)) :
    ∃ r', r = r' ++ y ∧ readNumber (q ++ y') = .ok (v, r' ++ y') := by
  rw [readNumber_eq, cuts_minusPart.append q y hy] at h
  simp only [cuts_wholePart.append _ y hy, readParts_append _ _ _ _ hy] at h
  rw [readNumber_eq, cuts_minusPart.append q y' hy']
  simp only [cuts_wholePart.append _ y' hy', readParts_append _ _ _ _ hy']
  cases hparts : readParts (q ++ y) (!(minusPart q).1.isEmpty)
      ((wholePart (minusPart q).2).1, (wholePart (minusPart q).2).2) with
  | error e =>
    rw [hparts] at h
    cases h
  | ok found =>
    obtain ⟨v', r'⟩ := found
    rw [hparts] at h
    obtain ⟨rfl, rfl⟩ := Prod.mk.inj (Except.ok.inj h)
    rw [readParts_congr hparts]
    exact ⟨r', rfl, rfl⟩

/-! ### Words -/

/-- A word without quotes stands before the first quote. -/
theorem dropStart?_append {word : Text} (hw : .char '"' ∉ word) (q : Text) {y : Text}
    (hy : Closed y) :
    Text.dropStart? word (q ++ y) = (Text.dropStart? word q).map (· ++ y) := by
  induction word generalizing q with
  | nil => rfl
  | cons p word ih =>
    rw [List.mem_cons, not_or] at hw
    cases q with
    | nil =>
      cases y with
      | nil => rfl
      | cons c y =>
        obtain rfl : c = .char '"' := hy c rfl
        simp [Text.dropStart?, Ne.symm hw.1]
    | cons c q =>
      simp only [List.cons_append, Text.dropStart?]
      split
      · exact ih hw.2 q
      · rfl

/-- The words hold atomic code points only. -/
theorem isAtomic_of_words : ∀ word ∈ words, word.1 ≠ [] ∧ ∀ c ∈ word.1, IsAtomic c := by
  decide

theorem readWord?_spec {s r : Text} {v : Json} (h : readWord? s = some (v, r)) :
    ∃ word, (word, v) ∈ words ∧ s = word ++ r := by
  obtain ⟨⟨word, v'⟩, hmem, hword⟩ := List.exists_of_findSome?_eq_some h
  obtain ⟨rest, hdrop, heq⟩ := Option.map_eq_some_iff.mp hword
  obtain ⟨rfl, rfl⟩ := Prod.mk.inj heq
  exact ⟨word, hmem, Text.dropStart?_eq_some_iff.mp hdrop⟩

theorem readWord?_append (q : Text) {y : Text} (hy : Closed y) :
    readWord? (q ++ y) = (readWord? q).map fun found => (found.1, found.2 ++ y) := by
  have hquote : ∀ word ∈ words, .char '"' ∉ word.1 :=
    fun word hword hq => ((isAtomic_of_words word hword).2 _ hq).1 rfl
  unfold readWord?
  generalize words = ws at hquote ⊢
  induction ws with
  | nil => rfl
  | cons word ws ih =>
    obtain ⟨w, v⟩ := word
    have hw : .char '"' ∉ w := hquote (w, v) List.mem_cons_self
    simp only [List.findSome?_cons]
    rw [dropStart?_append hw q hy]
    cases Text.dropStart? w q with
    | some rest => rfl
    | none => exact ih fun word hword => hquote word (List.mem_cons_of_mem _ hword)

/-! ### Atoms -/

/-- An atom is a text of atomic code points, and what follows them. -/
theorem readAtom_spec {s r : Text} {v : Json} (h : readAtom s = .ok (v, r)) :
    ∃ p, p ≠ [] ∧ s = p ++ r ∧ ∀ c ∈ p, IsAtomic c := by
  unfold readAtom at h
  split at h
  · next found hword =>
    obtain rfl := Except.ok.inj h
    obtain ⟨word, hmem, heq⟩ := readWord?_spec hword
    obtain ⟨hne, hatomic⟩ := isAtomic_of_words _ hmem
    exact ⟨word, hne, heq, hatomic⟩
  · exact readNumber_spec h

/-- A number or a word begins with an atomic code point. -/
theorem not_readAtom_cons {c : CodePoint} {s r : Text} {v : Json} (hc : ¬ IsAtomic c) :
    ¬ readAtom (c :: s) = .ok (v, r) := by
  intro ha
  obtain ⟨p, hp, heq, hatomic⟩ := readAtom_spec ha
  cases p with
  | nil => exact hp rfl
  | cons d p =>
    obtain ⟨rfl, _⟩ := List.cons.inj heq
    exact hc (hatomic _ List.mem_cons_self)

/-- **An atom does not depend on what follows the first quote.** -/
theorem readAtom_append {q y y' : Text} (hy : Closed y) (hy' : Closed y') {v : Json} {r : Text}
    (h : readAtom (q ++ y) = .ok (v, r)) :
    ∃ r', r = r' ++ y ∧ readAtom (q ++ y') = .ok (v, r' ++ y') := by
  unfold readAtom at h ⊢
  rw [readWord?_append q hy] at h
  rw [readWord?_append q hy']
  cases hword : readWord? q with
  | some found =>
    obtain ⟨v', r'⟩ := found
    rw [hword] at h
    obtain ⟨rfl, rfl⟩ := Prod.mk.inj (Except.ok.inj h)
    exact ⟨r', rfl, rfl⟩
  | none =>
    rw [hword] at h
    exact readNumber_append hy hy' h

end Json

end ClangDb

import ClangDb.Proofs.Database.Literal
import ClangDb.Proofs.Json.Grammar
import Mathlib.Data.List.Basic

/-! # The pieces of a document

    Seen from left to right a document is a sequence of strings and of single
    code points between them.  What follows a string is a blank or one of four
    delimiters, so that the role of a quote can be told from its neighbours, and
    a string holds no control, so that a line break never falls inside one.

    Key theorems:
    - `Document.pieces`: a document has pieces,
    - `Pieces.quote_cases`: a quote opens a string, closes one or is escaped in one,
    - `Pieces.cut`: a text may be cut at a control.
-/

namespace ClangDb

namespace Json

open Database (IsBody)

/-- A string and what follows it. -/
abbrev quoted (body s : Text) : Text := .char '"' :: (body ++ .char '"' :: s)

/-- Whether a code point may follow a string. -/
def isDelimiter (c : CodePoint) : Bool :=
  isSpace c || c = .char ',' || c = .char ':' || c = .char ']' || c = .char '\x7d'

/-- Holds of what may follow a string. -/
def Delimits (s : Text) : Prop := ∀ c ∈ s.head?, isDelimiter c = true

/-- Holds of a sequence of strings and of code points that are no quotes. -/
inductive Pieces : Text → Prop where
  | nil : Pieces []
  | plain {c : CodePoint} {s : Text} : c ≠ .char '"' → Pieces s → Pieces (c :: s)
  | string {body s : Text} : Spelled body → Delimits s → Pieces s → Pieces (quoted body s)

/-! ### Documents have pieces -/

variable {s a b : Text}

theorem isSpace_ne {c : CodePoint} (h : isSpace c = true) : c ≠ .char '"' := by
  rintro rfl
  exact absurd h (by decide)

theorem skip_cons_of_space {c : CodePoint} (h : isSpace c = true) (s : Text) :
    skip (c :: s) = skip s := by
  simp [skip, h]

theorem skip_cons_of_not_space {c : CodePoint} (h : isSpace c = false) (s : Text) :
    skip (c :: s) = c :: s := by
  simp [skip, h]

/-- Blanks are pieces. -/
theorem pieces_of_skip (h : Pieces (skip s)) : Pieces s := by
  induction s with
  | nil => exact .nil
  | cons c s ih =>
    cases hc : isSpace c with
    | true =>
      rw [skip_cons_of_space hc] at h
      exact .plain (isSpace_ne hc) (ih h)
    | false => rwa [skip_cons_of_not_space hc] at h

/-- What is blank up to a delimiter may follow a string. -/
theorem delimits_of_skip (h : Delimits (skip s)) : Delimits s := by
  cases s with
  | nil => exact h
  | cons c s =>
    cases hc : isSpace c with
    | true =>
      intro d hd
      obtain rfl := Option.some.inj hd
      simp [isDelimiter, hc]
    | false => rwa [skip_cons_of_not_space hc] at h

theorem pieces_of_skip_eq {c : CodePoint} {r : Text} (h : skip s = c :: r)
    (hc : isDelimiter c = true) (hr : Pieces r) : Pieces s ∧ Delimits s := by
  have hne : c ≠ .char '"' := by
    rintro rfl
    exact absurd hc (by decide)
  constructor
  · exact pieces_of_skip (h ▸ .plain hne hr)
  · apply delimits_of_skip
    rw [h]
    intro d hd
    obtain rfl := Option.some.inj hd
    exact hc

theorem pieces_append_of_ne (ha : ∀ c ∈ a, c ≠ .char '"') (hb : Pieces b) : Pieces (a ++ b) := by
  induction a with
  | nil => exact hb
  | cons c a ih =>
    exact .plain (ha c List.mem_cons_self) (ih fun d hd => ha d (List.mem_cons_of_mem _ hd))

/-- An item is made of pieces, and so is what is left. -/
theorem Reads.pieces {P : List Text → Prop} {d : Nat} {r : Text} {item : Item}
    (h : Reads P d s item r) (hr : Pieces r) (hd : Delimits r) : Pieces s := by
  -- a bracket or a brace and the blanks behind it
  have hplain : ∀ {c : CodePoint} {t : Text}, c ≠ .char '"' → Pieces (skip t) → Pieces (c :: t) :=
    fun hc ht => .plain hc (pieces_of_skip ht)
  induction h with
  | string hw => exact .string hw.1 hd hr
  | atom ha =>
    obtain ⟨p, _, rfl, hatomic⟩ := readAtom_spec ha
    exact pieces_append_of_ne (fun c hc => (hatomic c hc).1) hr
  | emptyArray hx => exact hplain (by decide) (hx ▸ .plain (by decide) hr)
  | array _ ih => exact hplain (by decide) (ih hr hd)
  | emptyObject hx => exact hplain (by decide) (hx ▸ .plain (by decide) hr)
  | object _ _ ih => exact hplain (by decide) (ih hr hd)
  | lastElement _ hx ih =>
    obtain ⟨hp, hdx⟩ := pieces_of_skip_eq hx (by decide) hr
    exact ih hp hdx
  | element _ hx _ ih₁ ih₂ =>
    obtain ⟨hp, hdx⟩ := pieces_of_skip_eq hx (by decide) (pieces_of_skip (ih₂ hr hd))
    exact ih₁ hp hdx
  | lastMember hw hx _ hz ih =>
    obtain ⟨hp, hdz⟩ := pieces_of_skip_eq hz (by decide) hr
    obtain ⟨hpx, hdx⟩ := pieces_of_skip_eq hx (by decide) (pieces_of_skip (ih hp hdz))
    exact .string hw.1 hdx hpx
  | member hw hx _ hz _ ih₁ ih₂ =>
    obtain ⟨hp, hdz⟩ := pieces_of_skip_eq hz (by decide) (pieces_of_skip (ih₂ hr hd))
    obtain ⟨hpx, hdx⟩ := pieces_of_skip_eq hx (by decide) (pieces_of_skip (ih₁ hp hdz))
    exact .string hw.1 hdx hpx

/-- **A document has pieces.** -/
theorem Document.pieces {P : List Text → Prop} {v : Json} (h : Document P s v) : Pieces s := by
  obtain ⟨_, r, hreads, hskip⟩ := h
  have hr : Pieces r := pieces_of_skip (hskip ▸ .nil)
  have hd : Delimits r := delimits_of_skip (by simp [hskip, Delimits])
  exact pieces_of_skip (hreads.pieces hr hd)

/-! ### Quotes -/

/-- A quote in a spelled text is escaped. -/
theorem Spelled.backslash_of_quote {body : Text} (h : Spelled body) {a b : Text}
    (hs : body = a ++ .char '"' :: b) : a.getLast? = some (.char '\\') := by
  induction h generalizing a with
  | nil => simp at hs
  | plain hq _ _ _ ih =>
    cases a with
    | nil => exact absurd (List.cons.inj hs).1 hq
    | cons x a =>
      obtain ⟨rfl, hs'⟩ := List.cons.inj hs
      rw [List.getLast?_cons, ih hs']
      rfl
  | simple _ _ ih =>
    rcases a with _ | ⟨x, _ | ⟨y, a⟩⟩
    · simp at hs
    · obtain ⟨rfl, _⟩ := List.cons.inj hs
      rfl
    · obtain ⟨rfl, hs'⟩ := List.cons.inj hs
      obtain ⟨rfl, hs''⟩ := List.cons.inj hs'
      rw [List.getLast?_cons, List.getLast?_cons, ih hs'']
      rfl
  | @hex a₁ a₂ a₃ a₄ r hdigits _ ih =>
    have hne : ∀ c ∈ [a₁, a₂, a₃, a₄], c ≠ .char '"' :=
      fun c hc => (bounds_of_hex? hdigits c hc).1
    -- the quote stands at none of the four digits
    rcases a with _ | ⟨x₁, _ | ⟨x₂, _ | ⟨x₃, _ | ⟨x₄, _ | ⟨x₅, _ | ⟨x₆, a⟩⟩⟩⟩⟩⟩ <;>
      simp only [List.nil_append, List.cons_append, List.cons.injEq] at hs
    · exact absurd hs.1 (by decide)
    · exact absurd hs.2.1 (by decide)
    · exact absurd hs.2.2.1 (hne _ (by simp))
    · exact absurd hs.2.2.2.1 (hne _ (by simp))
    · exact absurd hs.2.2.2.2.1 (hne _ (by simp))
    · exact absurd hs.2.2.2.2.2.1 (hne _ (by simp))
    · obtain ⟨_, _, _, _, _, _, hs⟩ := hs
      simp only [List.getLast?_cons, ih hs]
      rfl

/-- What is spelled is a body. -/
theorem Spelled.isBody {body : Text} (h : Spelled body) : IsBody body := by
  induction h with
  | nil => exact .nil
  | plain hq hs _ _ ih => exact .plain hq hs ih
  | simple _ _ ih => exact .escape ih
  | hex hdigits _ ih =>
    have hne := bounds_of_hex? hdigits
    refine .escape (.plain ?_ ?_ (.plain ?_ ?_ (.plain ?_ ?_ (.plain ?_ ?_ ih))))
    all_goals first
      | exact (hne _ (by simp)).1
      | exact (hne _ (by simp)).2.1

/-- A spelled text ends at the first quote that is not escaped. -/
theorem Spelled.unique {body body' s s' : Text} (h : Spelled body) (h' : Spelled body')
    (heq : body ++ .char '"' :: s = body' ++ .char '"' :: s') : body = body' ∧ s = s' :=
  h.isBody.unique h'.isBody heq

/-- **A quote opens a string, closes one or is escaped in one.** -/
theorem Pieces.quote_cases (h : Pieces s) (hs : s = a ++ .char '"' :: b) :
    (Pieces a ∧ Pieces (.char '"' :: b)) ∨ (Pieces b ∧ Delimits b) ∨
      (a.getLast? = some (.char '\\') ∧ .char '"' ∈ b) := by
  induction h generalizing a with
  | nil => simp at hs
  | @plain c s hc hp ih =>
    cases a with
    | nil => exact absurd (List.cons.inj hs).1 hc
    | cons x a =>
      obtain ⟨rfl, hs'⟩ := List.cons.inj hs
      rcases ih hs' with ⟨ha, hb⟩ | hclose | ⟨hlast, hb⟩
      · exact .inl ⟨.plain hc ha, hb⟩
      · exact .inr (.inl hclose)
      · refine .inr (.inr ⟨?_, hb⟩)
        rw [List.getLast?_cons, hlast]
        rfl
  | @string body s hbody hd hp ih =>
    cases a with
    | nil =>
      obtain ⟨_, hs'⟩ := List.cons.inj hs
      rw [← hs']
      exact .inl ⟨.nil, .string hbody hd hp⟩
    | cons x a =>
      obtain ⟨rfl, hs'⟩ := List.cons.inj hs
      rcases List.append_eq_append_iff.mp hs' with ⟨e, ha, he⟩ | ⟨e, hb, he⟩
      · cases e with
        | nil =>
          -- it is the closing quote
          obtain rfl : s = b := by simpa using he
          exact .inr (.inl ⟨hp, hd⟩)
        | cons y e =>
          obtain ⟨rfl, he'⟩ := List.cons.inj (by simpa using he :
            CodePoint.char '"' :: s = y :: (e ++ .char '"' :: b))
          -- it stands behind this string
          rcases ih he' with ⟨he, hb⟩ | hclose | ⟨hlast, hb⟩
          · refine .inl ⟨?_, hb⟩
            rw [ha]
            refine .string hbody ?_ he
            intro c hc
            cases e with
            | nil => cases hc
            | cons z e => exact hd c (by rw [he']; exact hc)
          · exact .inr (.inl hclose)
          · refine .inr (.inr ⟨?_, hb⟩)
            rw [ha]
            cases e with
            | nil => cases hlast
            | cons z e => simpa [List.getLast?_cons, List.getLast?_append] using hlast
      · cases e with
        | nil =>
          obtain rfl : b = s := by simpa using he
          exact .inr (.inl ⟨hp, hd⟩)
        | cons y e =>
          obtain ⟨rfl, rfl⟩ := List.cons.inj (by simpa using he :
            CodePoint.char '"' :: b = y :: (e ++ .char '"' :: s))
          -- it stands inside this string
          refine .inr (.inr ⟨?_, by simp⟩)
          rw [List.getLast?_cons, hbody.backslash_of_quote hb]
          rfl

/-- A literal among pieces is a string. -/
theorem Pieces.quoted_inv {body : Text} (h : Pieces (quoted body s)) (hb : IsBody body) :
    Spelled body ∧ Pieces s := by
  generalize hx : quoted body s = x at h
  cases h with
  | nil => cases hx
  | plain hc _ => exact absurd (List.cons.inj hx).1.symm hc
  | string hb' _ hs =>
    obtain ⟨rfl, rfl⟩ := hb.unique hb'.isBody (List.cons.inj hx).2
    exact ⟨hb', hs⟩

theorem Pieces.of_append (h : Pieces (a ++ s)) (ha : ∀ c ∈ a, c ≠ .char '"') : Pieces s := by
  induction a with
  | nil => exact h
  | cons c a ih =>
    obtain ⟨hc, ha⟩ := List.forall_mem_cons.mp ha
    rw [List.cons_append] at h
    generalize hx : c :: (a ++ s) = x at h
    cases h with
    | nil => cases hx
    | plain _ h =>
      obtain ⟨_, rfl⟩ := List.cons.inj hx
      exact ih h ha
    | string => exact absurd (List.cons.inj hx).1 hc

/-! ### Controls -/

theorem ne_quote_of_control {c : CodePoint} (h : c.toNat < 0x20) : c ≠ .char '"' := by
  rintro rfl
  exact absurd h (by decide)

/-- **A text may be cut at a control**, since no string holds one. -/
theorem Pieces.cut {c : CodePoint} (h : Pieces s) (hs : s = a ++ c :: b) (hc : c.toNat < 0x20) :
    Pieces a ∧ Pieces b := by
  induction h generalizing a with
  | nil => simp at hs
  | @plain d s hd hp ih =>
    cases a with
    | nil =>
      obtain ⟨rfl, rfl⟩ := List.cons.inj hs
      exact ⟨.nil, hp⟩
    | cons x a =>
      obtain ⟨rfl, hs'⟩ := List.cons.inj hs
      obtain ⟨ha, hb⟩ := ih hs'
      exact ⟨.plain hd ha, hb⟩
  | @string body s hbody hd hp ih =>
    have hbound := hbody.le_toNat
    cases a with
    | nil => exact absurd (List.cons.inj hs).1.symm (ne_quote_of_control hc)
    | cons x a =>
      obtain ⟨rfl, hs'⟩ := List.cons.inj hs
      rcases List.append_eq_append_iff.mp hs' with ⟨e, rfl, he⟩ | ⟨e, rfl, he⟩
      · cases e with
        | nil =>
          -- the control is not the closing quote
          obtain ⟨hq, _⟩ := List.cons.inj he
          exact absurd hq.symm (ne_quote_of_control hc)
        | cons y e =>
          obtain ⟨rfl, he'⟩ := List.cons.inj he
          obtain ⟨ha, hb⟩ := ih he'
          refine ⟨.string hbody ?_ ha, hb⟩
          intro z hz
          cases e with
          | nil => cases hz
          | cons w e => exact hd z (by rw [he']; exact hz)
      · cases e with
        | nil =>
          obtain ⟨hq, _⟩ := List.cons.inj he
          exact absurd hq (ne_quote_of_control hc)
        | cons y e =>
          obtain ⟨rfl, _⟩ := List.cons.inj he
          have := hbound c (by simp)
          omega

end Json

end ClangDb

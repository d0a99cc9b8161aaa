import ClangDb.Proofs.ResponseFile.Editing
import Mathlib.Data.List.Chain

/-! # Steps that take escapes away, as one

    A step takes the escape from a quote by what stands around it, and most of them
    do not see whether the quotes there have lost theirs.  So one such step after
    another is the step that does what either does.  Only the second quote of a
    pair is told by the escapes around it; where no quotes are side by side there
    is none, and all five steps are one.

    Key theorems:
    - `loosen_append`: a step passes over glyphs that are no quotes,
    - `loosen_loosen`: two steps as one,
    - `unescaped_eq_loosen`: all steps as one.
-/

namespace ClangDb

namespace Arguments

open Glyph

variable {g g' : Glyph} {gs hs b b' before : List Glyph}

/-! ### Tests of a place -/

/-- Holds of a test of a place that gives the same answer when quotes around it lose their
    escape. -/
def Blind (sheds : List Glyph → List Glyph → Bool) : Prop :=
  ∀ b b' r r', Loosens b b' → Loosens r r' → sheds b' r' = sheds b r

theorem Glyph.Becomes.last (h : g.Becomes g') : g'.last = g.last := by
  rcases h with rfl | ⟨rfl, rfl⟩
  · rfl
  · rfl

theorem blind_afterFlag (letter : CodePoint) : Blind (afterFlag letter) := by
  -- neither the letter nor what stands before it is a quote with its escape
  have hletter : ∀ {g'}, (Glyph.plain letter).Becomes g' ↔ g' = .plain letter := by
    intro g'
    constructor
    · rintro (rfl | ⟨hquote, _⟩)
      · rfl
      · cases hquote
    · exact .inl
  intro b b' r r' hb _
  rw [Bool.eq_iff_iff, afterFlag_eq_true_iff, afterFlag_eq_true_iff]
  constructor
  · rintro ⟨g', s', rfl, hlast⟩
    cases hb with
    | @cons g₁ _ _ _ hfirst hmore =>
      cases hmore with
      | cons hg _ =>
        rcases hfirst with rfl | ⟨_, hquote⟩
        · exact ⟨_, _, rfl, hg.last.symm.trans hlast⟩
        · cases hquote
  · rintro ⟨g, s, rfl, hlast⟩
    cases hb with
    | cons hfirst hmore =>
      cases hmore with
      | cons hg _ =>
        rw [hletter.mp hfirst]
        exact ⟨_, _, rfl, hg.last.trans hlast⟩

theorem blind_beforeBlank : Blind beforeBlank := by
  intro b b' r r' _ hr
  cases hr with
  | nil => rfl
  | cons hg _ => exact hg.isBlank

theorem blind_afterBlank : Blind afterBlank := by
  intro b b' r r' hb _
  cases hb with
  | nil => rfl
  | cons hg _ => exact hg.isBlank

/-! ### Two steps as one -/

/-- Glyphs among which is no quote with its escape are passed over. -/
theorem loosen_append {sheds : List Glyph → List Glyph → Bool} (h : escapedQuote ∉ gs)
    (before r : List Glyph) :
    loosen sheds before (gs ++ r) = gs ++ loosen sheds (gs.reverse ++ before) r := by
  induction gs generalizing before with
  | nil => rfl
  | cons g gs ih =>
    rw [List.mem_cons, not_or] at h
    rw [List.cons_append, loosen, if_neg fun hg => h.1 hg.1.symm, ih h.2, List.reverse_cons,
      List.append_assoc]
    rfl

/-- **One step after another is one step**, if the second does not see what the first has
    done. -/
theorem loosen_loosen {P Q : List Glyph → List Glyph → Bool} (hQ : Blind Q)
    (hb : Loosens b b') (gs : List Glyph) :
    loosen Q b' (loosen P b gs) = loosen (fun b r => P b r || Q b r) b gs := by
  induction gs generalizing b b' with
  | nil => rfl
  | cons g r ih =>
    have hhead := loosens_loosen P b (g :: r)
    rw [loosen] at hhead
    obtain ⟨hg, hr⟩ := List.forall₂_cons.mp hhead
    -- the second step sees what the first has left before the glyph and behind it
    have hsame := hQ b b' r (loosen P (g :: b) r) hb hr
    rw [loosen, loosen, loosen, ih (.cons hg hb), hsame]
    congr 1
    by_cases hquote : g = escapedQuote
    · subst hquote
      cases P b r with
      | true => rfl
      | false => rfl
    · have hkept : ∀ p : Prop, ¬ (g = escapedQuote ∧ p) := fun p h => hquote h.1
      rw [if_neg (hkept _), if_neg (hkept _), if_neg (hkept _)]

/-! ### All steps as one -/

/-- Holds of glyphs in which no two quotes with their escapes are side by side. -/
def Lone (gs : List Glyph) : Prop :=
  gs.IsChain fun g g' => ¬ (g = escapedQuote ∧ g' = escapedQuote)

theorem Lone.tail (h : Lone (g :: gs)) : Lone gs := List.IsChain.tail h

theorem Lone.loosens (h : Lone gs) (hgs : Loosens gs hs) : Lone hs := by
  -- no step makes an escaped quote, so two of them side by side were there before
  have hkept : ∀ {g g' : Glyph}, g.Becomes g' → g' = escapedQuote → g = escapedQuote := by
    rintro g g' (rfl | ⟨hquote, _⟩) hg
    · exact hg
    · exact hquote
  induction hgs with
  | nil => exact .nil
  | cons hg hmore ih =>
    cases hmore with
    | nil => exact .singleton _
    | cons hg' hmore =>
      obtain ⟨hpair, htail⟩ := List.isChain_cons_cons.mp h
      refine .cons_cons ?_ (ih htail)
      rintro ⟨hfirst, hsecond⟩
      exact hpair ⟨hkept hg hfirst, hkept hg' hsecond⟩

/-- Where no quotes are side by side none is the second of a pair. -/
theorem loosen_secondOfPair (h : Lone gs)
    (hbefore : before.head? = some escapedQuote → gs.head? ≠ some escapedQuote) :
    loosen secondOfPair before gs = gs := by
  induction gs generalizing before with
  | nil => rfl
  | cons g r ih =>
    have hkept : ¬ (g = escapedQuote ∧ secondOfPair before r = true) := by
      rintro ⟨rfl, hsecond⟩
      cases before with
      | nil => cases hsecond
      | cons g b =>
        have hg : g ≠ escapedQuote := by
          rintro rfl
          exact hbefore rfl rfl
        rw [secondOfPair_cons_of_ne hg] at hsecond
        cases hsecond
    have hnext : (g :: before).head? = some escapedQuote → r.head? ≠ some escapedQuote := by
      intro hg hr
      obtain ⟨r', rfl⟩ := List.head?_eq_some_iff.mp hr
      exact (List.isChain_cons_cons.mp h).1 ⟨Option.some.inj hg, rfl⟩
    rw [loosen, if_neg hkept, ih h.tail hnext]

/-- Whether a quote at a place loses its escape in one of the steps. -/
def sheds (before after : List Glyph) : Bool :=
  afterFlag (.char 'D') before after || afterFlag (.char 'I') before after ||
    beforeBlank before after || afterBlank before after

/-- **Where no quotes are side by side all steps are one.** -/
theorem unescaped_eq_loosen (h : Lone gs) : unescaped gs = loosen sheds [] gs := by
  -- the step for second quotes finds none, so the steps before it meet those behind it
  have hopened := h.loosens (loosens_loosen
    (fun b r => afterFlag (.char 'D') b r || afterFlag (.char 'I') b r) [] gs)
  unfold unescaped
  simp only [loosen_loosen (blind_afterFlag (.char 'I')) .nil]
  rw [loosen_secondOfPair hopened (fun h => by cases h), loosen_loosen blind_beforeBlank .nil,
    loosen_loosen blind_afterBlank .nil]
  rfl

/-- Three quotes in a row are side by side. -/
theorem Lone.not_run (h : Lone gs) : ¬ [escapedQuote, escapedQuote, escapedQuote] <:+: gs := by
  intro hrun
  have hlone := List.IsChain.infix h hrun
  exact (List.isChain_cons_cons.mp hlone).1 ⟨rfl, rfl⟩

end Arguments

end ClangDb

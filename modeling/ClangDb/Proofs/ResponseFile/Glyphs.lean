import ClangDb.Proofs.Text.Occurrence
import ClangDb.ResponseFile.Arguments
import Mathlib.Data.List.Forall2

/-! # Glyphs of a command

    The rest of a command is a sequence of glyphs: plain code points, and
    backslashes with the code point after each.  A quote of the command is an
    escaped one; on the way to the body of a response file some of them lose their
    escape, which is the only change to the glyphs until backslashes are replaced.

    Each step that takes escapes away decides by the glyphs before and after a
    quote, so all of them are instances of `loosen`.  A text is read off its
    glyphs in one way only: `escape_of_prefix` and its companions say which glyph
    a piece of text begins with.

    Key theorems:
    - `plain_of_prefix`, `escape_of_prefix`, `quote_of_prefix`: first glyphs,
    - `loosens_loosen`: what loosening leaves,
    - `apart_loosen`: no bare quote comes to stand behind a backslash.
-/

namespace ClangDb

namespace Arguments

/-- A glyph of an escaped text. -/
inductive Glyph where
  | plain (c : CodePoint)
  /-- A backslash and the code point after it. -/
  | escape (c : CodePoint)
  /-- A quote that lost its escape. -/
  | quote
  deriving DecidableEq

namespace Glyph

/-- A quote with its escape. -/
abbrev escapedQuote : Glyph := .escape (.char '"')

/-- A backslash with its escape. -/
abbrev backslash : Glyph := .escape (.char '\\')

/-- A glyph as it is written. -/
def spell : Glyph → Text
  | .plain c => [c]
  | .escape c => [.char '\\', c]
  | .quote => [.char '"']

/-- The last code point of a glyph. -/
def last : Glyph → CodePoint
  | .plain c => c
  | .escape c => c
  | .quote => .char '"'

/-- Whether a glyph is white space. -/
def isBlank : Glyph → Bool
  | .plain c => c.isBlank
  | _ => false

/-- Holds of a glyph that can be told apart in a text: a plain code point is neither quote nor
    backslash, and what is escaped is no white space. -/
def Sound : Glyph → Prop
  | .plain c => c ≠ .char '"' ∧ c ≠ .char '\\'
  | .escape c => c.isBlank = false
  | .quote => True

instance : DecidablePred Sound
  | .plain c => inferInstanceAs (Decidable (c ≠ .char '"' ∧ c ≠ .char '\\'))
  | .escape c => inferInstanceAs (Decidable (c.isBlank = false))
  | .quote => inferInstanceAs (Decidable True)

/-- The glyph that a code point has in a command: quotes and backslashes are escaped. -/
def ofCodePoint (c : CodePoint) : Glyph :=
  if c = .char '"' ∨ c = .char '\\' then .escape c else .plain c

end Glyph

open Glyph

variable {g : Glyph} {gs gs' before : List Glyph} {c : CodePoint} {p t : Text}

/-- Glyphs as they are written. -/
def spell (gs : List Glyph) : Text := gs.flatMap Glyph.spell

@[simp] theorem spell_nil : spell [] = [] := rfl

@[simp] theorem spell_cons (g : Glyph) (gs : List Glyph) :
    spell (g :: gs) = g.spell ++ spell gs := rfl

theorem spell_cons_append (g : Glyph) (gs : List Glyph) (s : Text) :
    spell (g :: gs) ++ s = g.spell ++ (spell gs ++ s) := List.append_assoc _ _ _

@[simp] theorem spell_append (gs gs' : List Glyph) :
    spell (gs ++ gs') = spell gs ++ spell gs' := List.flatMap_append

/-- Plain code points are written as they are. -/
theorem spell_map_plain (s : Text) : spell (s.map .plain) = s := by
  induction s with
  | nil => rfl
  | cons c s ih => exact congrArg (c :: ·) ih

/-- Holds of the end of a line: a quote, with or without a comma after it. -/
def IsEnd (t : Text) : Prop := t = [.char '"'] ∨ t = [.char '"', .char ',']

/-- Induction on a list that is taken apart in jumps where there is one, and else element by
    element. -/
theorem jump_induction {α : Type} {Jump : List α → List α → Prop} {P : List α → Prop}
    (hshorter : ∀ l r, Jump l r → r.length < l.length) (nil : P [])
    (jump : ∀ l r, Jump l r → P r → P l)
    (cons : ∀ a r, (∀ r', ¬ Jump (a :: r) r') → P r → P (a :: r)) (l : List α) : P l := by
  induction hl : l.length using Nat.strong_induction_on generalizing l with
  | _ n ih =>
    subst hl
    by_cases h : ∃ r, Jump l r
    · obtain ⟨r, hr⟩ := h
      exact jump l r hr (ih r.length (hshorter l r hr) r rfl)
    · cases l with
      | nil => exact nil
      | cons a r => exact cons a r (fun r' hr => h ⟨r', hr⟩) (ih r.length (by simp) r rfl)

/-! ### First glyphs -/

theorem IsEnd.head_eq (ht : IsEnd t) (h : c :: p <+: t) : c = .char '"' := by
  rcases ht with rfl | rfl
  · exact (List.cons_prefix_cons.mp h).1
  · exact (List.cons_prefix_cons.mp h).1

/-- A text that begins with another code point than a quote or a backslash begins with a plain
    glyph. -/
theorem plain_of_prefix (ht : IsEnd t) (hquote : c ≠ .char '"') (hbackslash : c ≠ .char '\\')
    (h : c :: p <+: spell gs ++ t) : ∃ r, gs = .plain c :: r ∧ p <+: spell r ++ t := by
  cases gs with
  | nil => exact absurd (ht.head_eq h) hquote
  | cons g r =>
    cases g with
    | plain d =>
      obtain ⟨rfl, hp⟩ := List.cons_prefix_cons.mp h
      exact ⟨r, rfl, hp⟩
    | escape d => exact absurd (List.cons_prefix_cons.mp h).1 hbackslash
    | quote => exact absurd (List.cons_prefix_cons.mp h).1 hquote

/-- A text that begins with a backslash begins with an escape. -/
theorem escape_of_prefix (ht : IsEnd t) (hgs : ∀ g ∈ gs, g.Sound)
    (h : .char '\\' :: c :: p <+: spell gs ++ t) :
    ∃ r, gs = .escape c :: r ∧ p <+: spell r ++ t := by
  cases gs with
  | nil => exact absurd (ht.head_eq h) (by decide)
  | cons g r =>
    cases g with
    | plain d =>
      have hsound : (Glyph.plain d).Sound := hgs _ List.mem_cons_self
      exact absurd (List.cons_prefix_cons.mp h).1.symm hsound.2
    | escape d =>
      obtain ⟨_, h⟩ := List.cons_prefix_cons.mp h
      obtain ⟨rfl, hp⟩ := List.cons_prefix_cons.mp h
      exact ⟨r, rfl, hp⟩
    | quote => exact absurd (List.cons_prefix_cons.mp h).1 (by decide)

/-- A quote that a backslash follows is not the one at the end of the line, so the text begins
    with a bare quote. -/
theorem quote_of_prefix (ht : IsEnd t) (hgs : ∀ g ∈ gs, g.Sound)
    (h : .char '"' :: .char '\\' :: p <+: spell gs ++ t) : ∃ r, gs = .quote :: r := by
  cases gs with
  | nil =>
    obtain ⟨_, h⟩ := h
    rcases ht with rfl | rfl <;> simp at h
  | cons g r =>
    cases g with
    | plain d =>
      have hsound : (Glyph.plain d).Sound := hgs _ List.mem_cons_self
      exact absurd (List.cons_prefix_cons.mp h).1.symm hsound.1
    | escape d => exact absurd (List.cons_prefix_cons.mp h).1 (by decide)
    | quote => exact ⟨r, rfl⟩

/-! ### Quotes that lose their escape -/

/-- The glyphs with the escapes of some quotes taken away, by the glyphs before each, the nearest
    first, and those after it. -/
def loosen (sheds : List Glyph → List Glyph → Bool) : (before : List Glyph) → List Glyph →
    List Glyph
  | _, [] => []
  | before, g :: r =>
    (if g = escapedQuote ∧ sheds before r = true then .quote else g) ::
      loosen sheds (g :: before) r

/-- Holds of a glyph and what may become of it. -/
def Glyph.Becomes (g g' : Glyph) : Prop := g' = g ∨ g = escapedQuote ∧ g' = .quote

/-- Holds of glyphs and those that are left when some quotes have lost their escape. -/
abbrev Loosens : List Glyph → List Glyph → Prop := List.Forall₂ Glyph.Becomes

theorem Glyph.Becomes.sound {g' : Glyph} (h : g.Becomes g') (hg : g.Sound) : g'.Sound := by
  rcases h with rfl | ⟨_, rfl⟩
  · exact hg
  · trivial

theorem Loosens.sound (h : Loosens gs gs') (hgs : ∀ g ∈ gs, g.Sound) : ∀ g ∈ gs', g.Sound := by
  induction h with
  | nil => exact hgs
  | cons hg _ ih =>
    obtain ⟨hfirst, hmore⟩ := List.forall_mem_cons.mp hgs
    exact List.forall_mem_cons.mpr ⟨hg.sound hfirst, ih hmore⟩

theorem Loosens.trans {gs'' : List Glyph} (h : Loosens gs gs') (h' : Loosens gs' gs'') :
    Loosens gs gs'' := by
  induction h generalizing gs'' with
  | nil => exact h'
  | cons hg _ ih =>
    cases h' with
    | cons hg' hmore =>
      refine .cons ?_ (ih hmore)
      rcases hg with rfl | ⟨rfl, rfl⟩
      · exact hg'
      · rcases hg' with rfl | ⟨hquote, _⟩
        · exact .inr ⟨rfl, rfl⟩
        · cases hquote

/-- **Loosening takes escapes of quotes away and does nothing else.** -/
theorem loosens_loosen (sheds : List Glyph → List Glyph → Bool) (before gs : List Glyph) :
    Loosens gs (loosen sheds before gs) := by
  induction gs generalizing before with
  | nil => exact .nil
  | cons g r ih =>
    refine .cons ?_ (ih (g :: before))
    by_cases h : g = escapedQuote ∧ sheds before r = true
    · rw [if_pos h]
      exact .inr ⟨h.1, rfl⟩
    · rw [if_neg h]
      exact .inl rfl

/-- Holds of glyphs among which no bare quote stands behind a backslash: together they would read
    as an escaped quote. -/
def Apart (gs : List Glyph) : Prop := gs.IsChain fun g g' => ¬ (g = backslash ∧ g' = .quote)

theorem apart_of_no_quote (h : Glyph.quote ∉ gs) : Apart gs := by
  induction gs with
  | nil => exact .nil
  | cons g r ih =>
    rw [List.mem_cons, not_or] at h
    cases r with
    | nil => exact .singleton g
    | cons g' r =>
      refine .cons_cons ?_ (ih h.2)
      rintro ⟨_, rfl⟩
      exact h.2 List.mem_cons_self

theorem Apart.tail (h : Apart (g :: gs)) : Apart gs := by
  cases gs with
  | nil => exact .nil
  | cons g' r => exact (List.isChain_cons_cons.mp h).2

/-- **A quote that loses its escape does not come to stand behind a backslash**, if none behind
    a backslash does. -/
theorem apart_loosen {sheds : List Glyph → List Glyph → Bool}
    (hsheds : ∀ before after, sheds (backslash :: before) after = false) (h : Apart gs) :
    Apart (loosen sheds before gs) := by
  induction gs generalizing before with
  | nil => exact .nil
  | cons g r ih =>
    cases r with
    | nil => exact .singleton _
    | cons g' r =>
      obtain ⟨hpair, hmore⟩ := List.isChain_cons_cons.mp h
      refine .cons_cons ?_ (ih hmore)
      rintro ⟨hbackslash, hquote⟩
      -- the backslash was there before, so the quote was bare before
      have hg : g = backslash := by
        split at hbackslash
        · cases hbackslash
        · exact hbackslash
      subst hg
      split at hquote
      · next hboth => simp [hsheds] at hboth
      · exact hpair ⟨rfl, hquote⟩

/-! ### Where quotes lose their escape -/

/-- Behind a hyphen and a letter. -/
def afterFlag (letter : CodePoint) : List Glyph → List Glyph → Bool
  | .plain c :: g :: _, _ => c = letter && g.last = .char '-'
  | _, _ => false

/-- Behind an odd number of quotes with their escapes. -/
def secondOfPair (before _ : List Glyph) : Bool :=
  (before.takeWhile (· = escapedQuote)).length % 2 = 1

/-- Before white space and at the end. -/
def beforeBlank (_ : List Glyph) : List Glyph → Bool
  | [] => true
  | g :: _ => g.isBlank

/-- Behind white space. -/
def afterBlank (before _ : List Glyph) : Bool := before.head?.any Glyph.isBlank

/-- The glyphs with the escapes gone that the steps take away. -/
def unescaped (gs : List Glyph) : List Glyph :=
  let opened := loosen (afterFlag (.char 'I')) [] (loosen (afterFlag (.char 'D')) [] gs)
  loosen afterBlank [] (loosen beforeBlank [] (loosen secondOfPair [] opened))

theorem loosens_unescaped (gs : List Glyph) : Loosens gs (unescaped gs) := by
  apply Loosens.trans (loosens_loosen (afterFlag (.char 'D')) [] gs)
  apply Loosens.trans (loosens_loosen (afterFlag (.char 'I')) [] _)
  apply Loosens.trans (loosens_loosen secondOfPair [] _)
  apply Loosens.trans (loosens_loosen beforeBlank [] _)
  exact loosens_loosen afterBlank [] _

end Arguments

end ClangDb

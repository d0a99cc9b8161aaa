import ClangDb.Proofs.ResponseFile.Steps
import Mathlib.Data.List.DropRight

/-! # From glyphs to the body

    When the quotes have lost their escapes the glyphs are written out for good:
    escaped backslashes become slashes, the end of the line goes with the white
    space around what is left, and a space behind a quote becomes the end of a
    line.  `render` says it glyph by glyph.

    Key theorems:
    - `stripTerminator_slashed`: the end of the line goes, and the white space at both ends,
    - `breakLines_slashed`: lines end behind quotes,
    - `body_spell`: the eight steps as operations on glyphs.
-/

namespace ClangDb

namespace Arguments

open Glyph

variable {g : Glyph} {gs gs' before : List Glyph} {c : CodePoint} {s t : Text}

/-! ### Slashes -/

/-- A glyph with a slash for an escaped backslash. -/
def Glyph.slashed : Glyph → Text
  | .plain c => [c]
  | .escape c => if c = .char '\\' then [.char '/'] else [.char '\\', c]
  | .quote => [.char '"']

theorem slashed_escape (hc : c ≠ .char '\\') : (Glyph.escape c).slashed = [.char '\\', c] :=
  if_neg hc

theorem slashes_cons (hc : c ≠ .char '\\') (s : Text) : slashes (c :: s) = c :: slashes s := by
  refine Text.replaceAll_cons ?_ "/"
  intro h
  exact hc (List.cons_prefix_cons.mp h).1.symm

/-- **Escaped backslashes become slashes.** -/
theorem slashes_spell (ht : IsEnd t) (hgs : ∀ g ∈ gs, g.Sound) :
    slashes (spell gs ++ t) = gs.flatMap slashed ++ t := by
  induction gs with
  | nil => rcases ht with rfl | rfl <;> rfl
  | cons g r ih =>
    obtain ⟨hsound, hmore⟩ := List.forall_mem_cons.mp hgs
    rw [spell_cons_append, List.flatMap_cons, List.append_assoc, ← ih hmore]
    cases g with
    | plain c => exact slashes_cons hsound.2 _
    | quote => exact slashes_cons (by decide) _
    | escape c =>
      by_cases hc : c = .char '\\'
      · subst hc
        exact Text.replaceAll_append_self (by decide) "/" (spell r ++ t)
      · have hfirst : slashes (.char '\\' :: c :: (spell r ++ t)) =
            .char '\\' :: slashes (c :: (spell r ++ t)) := by
          refine Text.replaceAll_cons ?_ "/"
          intro h
          exact hc (List.cons_prefix_cons.mp (List.cons_prefix_cons.mp h).2).1.symm
        rw [slashed_escape hc]
        exact hfirst.trans (congrArg (fun s : Text => .char '\\' :: s) (slashes_cons hc _))

/-! ### The ends -/

theorem not_isTerminator_append (ht : IsEnd t) (c : CodePoint) (s : Text) :
    isTerminator (c :: (s ++ t)) = false := by
  have hquote : .char '"' ∈ s ++ t := by
    refine List.mem_append_right s ?_
    rcases ht with rfl | rfl <;> decide
  rw [Bool.eq_false_iff]
  intro h
  unfold isTerminator at h
  split at h
  · next r heq =>
    obtain ⟨_, rfl⟩ := List.cons.inj heq
    exact not_mem_of_isCommaAndBlanks h hquote
  · exact not_mem_of_isCommaAndBlanks h (List.mem_cons_of_mem _ hquote)

/-- The text before the end of the line is what is left. -/
theorem dropTerminator_append (ht : IsEnd t) (s : Text) : dropTerminator (s ++ t) = s := by
  induction s with
  | nil => rcases ht with rfl | rfl <;> decide
  | cons c s ih =>
    rw [List.cons_append, dropTerminator, not_isTerminator_append ht, if_neg (by decide), ih]

/-- The glyphs without the white space at both ends. -/
def strip (gs : List Glyph) : List Glyph := (gs.dropWhile Glyph.isBlank).rdropWhile Glyph.isBlank

/-- White space before glyphs that have none at their ends is all that is stripped. -/
theorem strip_append (hbefore : ∀ g ∈ before, g.isBlank = true)
    (hhead : ∃ g r, gs = g :: r ∧ g.isBlank = false)
    (hlast : ∃ r g, gs = r ++ [g] ∧ g.isBlank = false) : strip (before ++ gs) = gs := by
  obtain ⟨g, r, hcons, hg⟩ := hhead
  obtain ⟨r', g', hconcat, hg'⟩ := hlast
  have hdrop : (before ++ gs).dropWhile Glyph.isBlank = gs := by
    rw [List.dropWhile_append_of_pos hbefore, hcons, List.dropWhile_cons_of_neg (by simp [hg])]
  rw [strip, hdrop, hconcat, List.rdropWhile_concat_neg _ _ _ (by simp [hg'])]

/-- Holds of a way to write glyphs that writes white space as such, and other glyphs with code
    points at both ends that are none. -/
structure Shows (write : Glyph → Text) (gs : List Glyph) : Prop where
  blank : ∀ g ∈ gs, g.isBlank = true → ∀ c ∈ write g, c.isBlank = true
  head : ∀ g ∈ gs, g.isBlank = false → ∃ c s, write g = c :: s ∧ c.isBlank = false
  last : ∀ g ∈ gs, g.isBlank = false → ∃ s c, write g = s ++ [c] ∧ c.isBlank = false

theorem dropWhile_flatMap {write : Glyph → Text}
    (hblank : ∀ g ∈ gs, g.isBlank = true → ∀ c ∈ write g, c.isBlank = true)
    (hhead : ∀ g ∈ gs, g.isBlank = false → ∃ c s, write g = c :: s ∧ c.isBlank = false) :
    (gs.flatMap write).dropWhile CodePoint.isBlank =
      (gs.dropWhile Glyph.isBlank).flatMap write := by
  induction gs with
  | nil => rfl
  | cons g r ih =>
    obtain ⟨hg, hmore⟩ := List.forall_mem_cons.mp hblank
    obtain ⟨hg', hmore'⟩ := List.forall_mem_cons.mp hhead
    rw [List.flatMap_cons, List.dropWhile_cons]
    cases h : g.isBlank with
    | true =>
      have hnil : (write g).dropWhile CodePoint.isBlank = [] := List.dropWhile_eq_nil_iff.mpr (hg h)
      rw [List.dropWhile_append, hnil]
      exact ih hmore hmore'
    | false =>
      obtain ⟨c, s, hwrite, hc⟩ := hg' h
      have hkept : (write g ++ r.flatMap write).dropWhile CodePoint.isBlank =
          write g ++ r.flatMap write := by
        rw [hwrite, List.cons_append, List.dropWhile_cons_of_neg (by simp [hc])]
      rw [hkept]
      rfl

/-- Both ends of a text are stripped where those of its glyphs are. -/
theorem trim_flatMap {write : Glyph → Text} (h : Shows write gs) :
    Text.trim (gs.flatMap write) = (strip gs).flatMap write := by
  have hmem : ∀ g ∈ (gs.dropWhile Glyph.isBlank).reverse, g ∈ gs := fun g hg =>
    (List.dropWhile_sublist _).mem (List.mem_reverse.mp hg)
  have hright : ((gs.dropWhile Glyph.isBlank).flatMap write).rdropWhile CodePoint.isBlank =
      (strip gs).flatMap write := by
    rw [List.rdropWhile, List.reverse_flatMap, dropWhile_flatMap]
    · rw [List.reverse_flatMap, strip, List.rdropWhile]
      simp [Function.comp_def]
    · intro g hg hblank c hc
      exact h.blank g (hmem g hg) hblank c (List.mem_reverse.mp hc)
    · intro g hg hblank
      obtain ⟨s, c, hwrite, hc⟩ := h.last g (hmem g hg) hblank
      exact ⟨c, s.reverse, by simp [hwrite], hc⟩
  rw [← hright, ← dropWhile_flatMap h.blank h.head]
  rfl

theorem shows_spell (hgs : ∀ g ∈ gs, g.Sound) : Shows Glyph.spell gs where
  blank g hg h c hc := by
    cases g with
    | plain d => rwa [List.mem_singleton.mp hc]
    | escape d => cases h
    | quote => cases h
  head g hg h := by
    cases g with
    | plain d => exact ⟨d, [], rfl, h⟩
    | escape d => exact ⟨.char '\\', [d], rfl, by decide⟩
    | quote => exact ⟨.char '"', [], rfl, by decide⟩
  last g hg h := by
    cases g with
    | plain d => exact ⟨[], d, rfl, h⟩
    | escape d => exact ⟨[.char '\\'], d, rfl, hgs _ hg⟩
    | quote => exact ⟨[], .char '"', rfl, by decide⟩

theorem shows_slashed (hgs : ∀ g ∈ gs, g.Sound) : Shows slashed gs := by
  have hspell := shows_spell hgs
  -- only the escaped backslash is written in another way
  have hcases : ∀ g : Glyph, g.slashed = g.spell ∨ g.isBlank = false ∧ g.slashed = [.char '/'] := by
    intro g
    cases g with
    | plain c => exact .inl rfl
    | quote => exact .inl rfl
    | escape c =>
      by_cases hc : c = .char '\\'
      · exact .inr ⟨rfl, if_pos hc⟩
      · exact .inl (slashed_escape hc)
  constructor
  · intro g hg h
    rcases hcases g with heq | ⟨hblank, _⟩
    · rw [heq]
      exact hspell.blank g hg h
    · rw [hblank] at h
      cases h
  · intro g hg h
    rcases hcases g with heq | ⟨_, heq⟩
    · rw [heq]
      exact hspell.head g hg h
    · exact ⟨.char '/', [], heq, by decide⟩
  · intro g hg h
    rcases hcases g with heq | ⟨_, heq⟩
    · rw [heq]
      exact hspell.last g hg h
    · exact ⟨[], .char '/', heq, by decide⟩

/-- The text of the stripped glyphs is the stripped text. -/
theorem spell_strip (hgs : ∀ g ∈ gs, g.Sound) : spell (strip gs) = Text.trim (spell gs) :=
  (trim_flatMap (shows_spell hgs)).symm

/-- **The end of the line goes, and the white space at both ends.** -/
theorem stripTerminator_slashed (ht : IsEnd t) (hgs : ∀ g ∈ gs, g.Sound) :
    stripTerminator (gs.flatMap slashed ++ t) = (strip gs).flatMap slashed := by
  rw [stripTerminator, dropTerminator_append ht, trim_flatMap (shows_slashed hgs)]

/-! ### Lines -/

/-- The text of a glyph in the body: a space behind a quote ends the line. -/
def Glyph.rendered (afterQuote : Bool) (g : Glyph) : Text :=
  if afterQuote = true ∧ g = .plain (.char ' ') then [.char '\n'] else g.slashed

/-- The text of glyphs in the body. -/
def render : (afterQuote : Bool) → List Glyph → Text
  | _, [] => []
  | afterQuote, g :: r => g.rendered afterQuote ++ render (g.last = .char '"') r

theorem rendered_false (g : Glyph) : g.rendered false = g.slashed := if_neg fun h => by cases h.1

theorem rendered_of_ne (hg : g ≠ .plain (.char ' ')) (afterQuote : Bool) :
    g.rendered afterQuote = g.slashed := if_neg fun h => hg h.2

theorem breakLines_cons (hc : c ≠ .char '"') (s : Text) :
    breakLines (c :: s) = c :: breakLines s := by
  refine Text.replaceAll_cons ?_ "\"\n"
  intro h
  exact hc (List.cons_prefix_cons.mp h).1.symm

theorem breakLines_quote (hs : s.head? ≠ some (.char ' ')) :
    breakLines (.char '"' :: s) = .char '"' :: breakLines s := by
  refine Text.replaceAll_cons ?_ "\"\n"
  intro h
  obtain ⟨_, r, rfl⟩ := List.cons_prefix_cons.mp h
  exact hs rfl

theorem head_slashed_append (hg : g ≠ .plain (.char ' ')) (s : Text) :
    (g.slashed ++ s).head? ≠ some (.char ' ') := by
  intro h
  cases g with
  | plain c => exact hg (congrArg Glyph.plain (Option.some.inj h))
  | quote => exact absurd (Option.some.inj h) (by decide)
  | escape c =>
    by_cases hc : c = .char '\\'
    · rw [hc] at h
      exact absurd (Option.some.inj h) (by decide)
    · rw [slashed_escape hc] at h
      exact absurd (Option.some.inj h) (by decide)

theorem breakLines_slashed_both (gs : List Glyph) :
    breakLines (gs.flatMap slashed) = render false gs ∧
      breakLines (.char '"' :: gs.flatMap slashed) = .char '"' :: render true gs := by
  induction gs with
  | nil => exact ⟨rfl, rfl⟩
  | cons g r ih =>
    obtain ⟨ihplain, ihquote⟩ := ih
    -- what the last code point of a glyph decides for the glyphs behind it
    have hlast : ∀ c, breakLines (c :: r.flatMap slashed) = c :: render (c = .char '"') r := by
      intro c
      by_cases hc : c = .char '"'
      · subst hc
        exact ihquote
      · rw [breakLines_cons hc, decide_eq_false hc, ihplain]
    have hfirst : breakLines (g.slashed ++ r.flatMap slashed) =
        g.slashed ++ render (g.last = .char '"') r := by
      cases g with
      | plain c => exact hlast c
      | quote => exact hlast (.char '"')
      | escape c =>
        by_cases hc : c = .char '\\'
        · subst hc
          exact hlast (.char '/')
        · rw [slashed_escape hc]
          exact (breakLines_cons (by decide) _).trans
            (congrArg (fun s : Text => .char '\\' :: s) (hlast c))
    rw [List.flatMap_cons, render, render, rendered_false]
    refine ⟨hfirst, ?_⟩
    by_cases hg : g = .plain (.char ' ')
    · subst hg
      have hbreak : breakLines (.char '"' :: .char ' ' :: r.flatMap slashed) =
          .char '"' :: .char '\n' :: breakLines (r.flatMap slashed) :=
        Text.replaceAll_append_self (by decide) "\"\n" (r.flatMap slashed)
      rw [ihplain] at hbreak
      exact hbreak
    · rw [breakLines_quote (head_slashed_append hg _), hfirst, rendered_of_ne hg]

/-- **Lines end behind quotes.** -/
theorem breakLines_slashed (gs : List Glyph) : breakLines (gs.flatMap slashed) = render false gs :=
  (breakLines_slashed_both gs).1

/-! ### All steps -/

/-- What the steps do in their order. -/
theorem body_eq (s : Text) :
    body s = restoreTriples (breakLines (stripTerminator (slashes (unescapeBoundaries
      (collapsePairs (openDefinesAndIncludes (protectTriples s))))))) := by
  simp only [body, steps, List.foldl_cons, List.foldl_nil, Step.apply]

theorem plain_placeholder_mem {g : Glyph} (h : g ∈ placeholder.map Glyph.plain) :
    g.Sound ∧ g ≠ .quote := by
  obtain ⟨c, hc, rfl⟩ := List.mem_map.mp h
  have hall : ∀ c ∈ placeholder, c ≠ .char '"' ∧ c ≠ .char '\\' := by decide
  exact ⟨hall c hc, by intro h; cases h⟩

/-- Hiding runs of escaped quotes brings in plain glyphs only. -/
theorem hideTriples_keeps (hgs : ∀ g ∈ gs, g.Sound ∧ g ≠ .quote) :
    ∀ g ∈ hideTriples gs, g.Sound ∧ g ≠ .quote := by
  induction gs using jump_induction Triple.length_lt with
  | nil => exact hgs
  | jump gs r h ih =>
    subst h
    rw [List.forall_mem_cons, List.forall_mem_cons, List.forall_mem_cons] at hgs
    intro g hg
    rw [hideTriples_triple] at hg
    rcases List.mem_append.mp hg with hg | hg
    · exact plain_placeholder_mem hg
    · exact ih hgs.2.2.2 g hg
  | cons g r h ih =>
    obtain ⟨hg, hmore⟩ := List.forall_mem_cons.mp hgs
    rw [hideTriples_cons h]
    exact List.forall_mem_cons.mpr ⟨hg, ih hmore⟩

/-- **The body of a response file, glyph by glyph**: runs of three escaped quotes are hidden,
    quotes lose their escape, the ends are stripped and the rest is rendered. -/
theorem body_spell (ht : IsEnd t) (hgs : ∀ g ∈ gs, g.Sound ∧ g ≠ .quote) :
    body (spell gs ++ t) =
      restoreTriples (render false (strip (unescaped (hideTriples gs)))) := by
  have hquote : Glyph.quote ∉ gs := fun h => (hgs _ h).2 rfl
  have hhidden := hideTriples_keeps hgs
  have hsound : ∀ g ∈ hideTriples gs, g.Sound := fun g hg => (hhidden g hg).1
  have hdefines := loosens_loosen (afterFlag (.char 'D')) [] (hideTriples gs)
  have hincludes := hdefines.trans (loosens_loosen (afterFlag (.char 'I')) [] _)
  have hpairs := hincludes.trans (loosens_loosen secondOfPair [] _)
  have hunescaped := (loosens_unescaped (hideTriples gs)).sound hsound
  -- the glyphs stay apart where boundaries of arguments are looked for
  have hapart : Apart (loosen (afterFlag (.char 'I')) []
      (loosen (afterFlag (.char 'D')) [] (hideTriples gs))) := by
    have hflag : ∀ letter before after, afterFlag letter (backslash :: before) after = false :=
      fun _ _ _ => rfl
    exact apart_loosen (hflag _) (apart_loosen (hflag _)
      (apart_of_no_quote fun h => (hhidden _ h).2 rfl))
  have hapart' : Apart (loosen secondOfPair [] _) :=
    apart_loosen (secondOfPair_cons_of_ne (g := backslash) (by decide)) hapart
  rw [body_eq, protectTriples_spell ht (fun g hg => (hgs g hg).1) hquote,
    openDefinesAndIncludes_spell ht hsound, collapsePairs_spell ht (hincludes.sound hsound) hapart,
    unescapeBoundaries_spell ht (hpairs.sound hsound) hapart']
  change restoreTriples (breakLines (stripTerminator (slashes
    (spell (unescaped (hideTriples gs)) ++ t)))) = _
  rw [slashes_spell ht hunescaped, stripTerminator_slashed ht hunescaped, breakLines_slashed]

end Arguments

end ClangDb

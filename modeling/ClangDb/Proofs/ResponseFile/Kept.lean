import ClangDb.Proofs.ResponseFile.Editing

/-! # Arguments in a body

    A body is its command edited glyph by glyph.  No edit reaches over white space,
    except that a space behind a quote ends the line; so the edit of a command is
    the edit of each of its arguments, and each argument stands in the body in its
    edited form.

    Key theorems:
    - `Edits.split`: an edit is taken apart at white space,
    - `StandsIn.strip`: what is stripped holds no argument,
    - `exists_edit_of_standsIn`: every argument is in the body.
-/

namespace ClangDb

namespace Arguments

open Glyph

variable {g : Glyph} {gs r before after arg : List Glyph} {q : Bool} {s t : Text}

/-! ### Edits between white space -/

theorem not_triple_of_append (h : ∀ r', ¬ Triple (g :: (before ++ after)) r') (r' : List Glyph) :
    ¬ Triple (g :: before) r' := by
  intro htriple
  refine h (r' ++ after) ?_
  unfold Triple at htriple ⊢
  rw [← List.cons_append, htriple]
  rfl

/-- A run of three quotes does not reach over white space. -/
theorem Triple.append_inv (h : Triple (before ++ after) r) (hbefore : before ≠ [])
    (hafter : ∀ g ∈ after.head?, g.isBlank = true) :
    ∃ before', Triple before before' ∧ r = before' ++ after := by
  have hquote : ∀ r', after ≠ escapedQuote :: r' := by
    rintro r' rfl
    exact absurd (hafter escapedQuote rfl) (by decide)
  unfold Triple at h ⊢
  rcases before with _ | ⟨g₁, _ | ⟨g₂, _ | ⟨g₃, before⟩⟩⟩
  · exact absurd rfl hbefore
  · exact absurd (List.cons.inj h).2 (hquote _)
  · exact absurd (List.cons.inj (List.cons.inj h).2).2 (hquote _)
  · simp only [List.cons_append, List.cons.injEq] at h
    obtain ⟨rfl, rfl, rfl, rfl⟩ := h
    exact ⟨before, rfl, rfl⟩

/-- **An edit is taken apart at white space.** -/
theorem Edits.split (h : Edits q gs s) (hgs : gs = before ++ after)
    (hafter : ∀ g ∈ after.head?, g.isBlank = true) :
    ∃ s₁ s₂ q', s = s₁ ++ s₂ ∧ Edits q before s₁ ∧ Edits q' after s₂ := by
  -- a run takes three glyphs at once, so the induction is on the length of what stands before
  induction hn : before.length using Nat.strongRecOn generalizing q gs s before with
  | ind n ih =>
    subst hn
    cases before with
    | nil =>
      rw [List.nil_append] at hgs
      exact ⟨[], s, q, rfl, .nil, hgs ▸ h⟩
    | cons g before =>
      -- every other edit takes one glyph, so its rest is shorter by one
      have hmore : ∀ {q : Bool} {r : List Glyph} {s : Text}, r = before ++ after → Edits q r s →
          ∃ s₁ s₂ q', s = s₁ ++ s₂ ∧ Edits q before s₁ ∧ Edits q' after s₂ :=
        fun hr h => ih _ (Nat.lt_succ_self _) h hr rfl
      cases h with
      | nil => cases hgs
      | triple htriple h =>
        obtain ⟨before', hbefore, hr⟩ :=
          Triple.append_inv (hgs ▸ htriple) (List.cons_ne_nil g before) hafter
        obtain ⟨s₁, s₂, q', rfl, h₁, h₂⟩ :=
          ih _ (Triple.length_lt _ _ hbefore) h hr rfl
        exact ⟨_, s₂, q', (List.append_assoc _ _ _).symm, .triple hbefore h₁, h₂⟩
      | kept htriple h =>
        obtain ⟨rfl, hr⟩ := List.cons.inj hgs
        obtain ⟨s₁, s₂, q', rfl, h₁, h₂⟩ := hmore hr h
        exact ⟨_, s₂, q', rfl, .kept (not_triple_of_append (hr ▸ htriple)) h₁, h₂⟩
      | bared htriple h =>
        obtain ⟨rfl, hr⟩ := List.cons.inj hgs
        obtain ⟨s₁, s₂, q', rfl, h₁, h₂⟩ := hmore hr h
        exact ⟨_, s₂, q', rfl, .bared (not_triple_of_append (hr ▸ htriple)) h₁, h₂⟩
      | slash h =>
        obtain ⟨rfl, hr⟩ := List.cons.inj hgs
        obtain ⟨s₁, s₂, q', rfl, h₁, h₂⟩ := hmore hr h
        exact ⟨_, s₂, q', rfl, .slash h₁, h₂⟩
      | escape hquote hbackslash h =>
        obtain ⟨rfl, hr⟩ := List.cons.inj hgs
        obtain ⟨s₁, s₂, q', rfl, h₁, h₂⟩ := hmore hr h
        exact ⟨_, s₂, q', rfl, .escape hquote hbackslash h₁, h₂⟩
      | newline h =>
        obtain ⟨rfl, hr⟩ := List.cons.inj hgs
        obtain ⟨s₁, s₂, q', rfl, h₁, h₂⟩ := hmore hr h
        exact ⟨_, s₂, q', rfl, .newline h₁, h₂⟩
      | plain hspace h =>
        obtain ⟨rfl, hr⟩ := List.cons.inj hgs
        obtain ⟨s₁, s₂, q', rfl, h₁, h₂⟩ := hmore hr h
        exact ⟨_, s₂, q', rfl, .plain hspace h₁, h₂⟩

/-- White space is edited by itself. -/
theorem Edits.tail_of_blank (hg : g.isBlank = true) (h : Edits q (g :: r) s) :
    ∃ c s', s = c :: s' ∧ Edits false r s' := by
  generalize hgs : g :: r = gs at h
  cases h with
  | nil => cases hgs
  | triple htriple _ =>
    obtain rfl := (List.cons.inj (hgs.trans htriple)).1
    cases hg
  | newline h =>
    obtain ⟨_, rfl⟩ := List.cons.inj hgs
    exact ⟨_, _, rfl, h⟩
  | plain _ h =>
    obtain ⟨_, rfl⟩ := List.cons.inj hgs
    exact ⟨_, _, rfl, h⟩
  | kept | bared | slash | escape =>
    obtain rfl := (List.cons.inj hgs).1
    cases hg

/-! ### Arguments among glyphs -/

/-- Holds of an argument that stands among glyphs: it neither begins nor ends with white space, and
    white space stands on both sides of it unless the glyphs end there. -/
def StandsIn (arg gs : List Glyph) : Prop :=
  ∃ before after, gs = before ++ (arg ++ after) ∧
    (∀ g ∈ before.getLast?, g.isBlank = true) ∧ (∀ g ∈ after.head?, g.isBlank = true) ∧
    (∃ g ∈ arg.head?, g.isBlank = false) ∧ ∃ g ∈ arg.getLast?, g.isBlank = false

theorem dropWhile_append_of_head (h : ∃ g ∈ after.head?, g.isBlank = false)
    (before : List Glyph) : (before ++ after).dropWhile Glyph.isBlank =
      before.dropWhile Glyph.isBlank ++ after := by
  obtain ⟨g, hhead, hg⟩ := h
  obtain ⟨r, rfl⟩ := List.head?_eq_some_iff.mp hhead
  rw [List.dropWhile_append]
  split
  · next hempty =>
    rw [List.isEmpty_iff.mp hempty, List.dropWhile_cons_of_neg (by simp [hg])]
    rfl
  · rfl

/-- **What is stripped holds no argument**: an argument stands in what is left. -/
theorem StandsIn.strip (h : StandsIn arg gs) : StandsIn arg (strip gs) := by
  obtain ⟨before, after, rfl, hbefore, hafter, hhead, hlast⟩ := h
  have hhead' : ∃ g ∈ (arg ++ after).head?, g.isBlank = false := by
    obtain ⟨g, hg, hblank⟩ := hhead
    exact ⟨g, by rw [List.head?_append, hg]; rfl, hblank⟩
  have hlast' : ∃ g ∈ (before.dropWhile Glyph.isBlank ++ arg).reverse.head?, g.isBlank = false := by
    obtain ⟨g, hg, hblank⟩ := hlast
    exact ⟨g, by rw [List.head?_reverse, List.getLast?_append, hg]; rfl, hblank⟩
  -- the argument stops the stripping on both sides
  refine ⟨before.dropWhile Glyph.isBlank, after.rdropWhile Glyph.isBlank, ?_, ?_, ?_, hhead, hlast⟩
  · rw [Arguments.strip, dropWhile_append_of_head hhead', ← List.append_assoc, List.rdropWhile,
      List.reverse_append, dropWhile_append_of_head hlast', List.reverse_append,
      List.reverse_reverse, List.append_assoc]
    rfl
  · intro g hg
    obtain ⟨blanks, hblanks⟩ := List.dropWhile_suffix (l := before) Glyph.isBlank
    refine hbefore g ?_
    rw [← hblanks, List.getLast?_append, hg]
    rfl
  · intro g hg
    obtain ⟨blanks, hblanks⟩ := List.rdropWhile_prefix Glyph.isBlank (l := after)
    refine hafter g ?_
    rw [← hblanks, List.head?_append, hg]
    rfl

/-- The edit of glyphs holds the edit of each argument that stands among them. -/
theorem Edits.exists_of_standsIn (h : Edits q gs s) (harg : StandsIn arg gs) :
    ∃ q' s', Edits q' arg s' ∧ s' <:+: s := by
  obtain ⟨before, after, rfl, hbefore, hafter, _, _⟩ := harg
  rcases List.eq_nil_or_concat' before with rfl | ⟨before, g, rfl⟩
  · obtain ⟨s₁, s₂, _, rfl, h₁, _⟩ := h.split (List.nil_append (arg ++ after)) hafter
    exact ⟨q, s₁, h₁, [], s₂, rfl⟩
  · -- the white space before the argument is edited by itself
    have hg : g.isBlank = true := hbefore g (by simp)
    have hgs : (before ++ [g]) ++ (arg ++ after) = before ++ g :: (arg ++ after) := by simp
    obtain ⟨s₁, s₂, _, rfl, _, h₂⟩ := h.split hgs fun g' hg' => Option.some.inj hg' ▸ hg
    obtain ⟨c, s₃, rfl, h₃⟩ := h₂.tail_of_blank hg
    obtain ⟨s₄, s₅, _, rfl, h₄, _⟩ := h₃.split rfl hafter
    exact ⟨false, s₄, h₄, s₁ ++ [c], s₅, by simp⟩

/-- **Every argument is in the body**, in its edited form. -/
theorem exists_edit_of_standsIn (hgs : ∀ g ∈ gs, g.Sound ∧ g ≠ .quote) (ht : IsEnd t)
    (hfree : Text.contains (spell gs ++ t) mark = false) (harg : StandsIn arg gs) :
    ∃ q s', Edits q arg s' ∧ s' <:+: body (spell gs ++ t) := by
  have hstripped : ∀ g ∈ strip gs, g.Sound ∧ g ≠ .quote := fun g hg =>
    hgs g ((isInfix_strip gs).mem hg)
  have hedits := (covers_hideTriples (loosens_unescaped (hideTriples gs))).strip.edits hstripped
    (not_mark_strip (fun g hg => (hgs g hg).1) hfree) false
  rw [body_spell ht hgs]
  exact hedits.exists_of_standsIn harg.strip

end Arguments

end ClangDb

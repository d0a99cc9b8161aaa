import ClangDb.Proofs.ResponseFile.Rendering

/-! # The body edits the command in place

    Rewriting neither loses nor invents anything.  The body of a response file is
    the rest of the command, without the end of the line and the white space at
    both ends, with an edit at some glyphs: an escaped backslash is a slash, an
    escaped quote may be bare, and a space behind a quote is the end of a line.
    Runs of three escaped quotes stay as they are.

    The placeholder of a run is found again where it was put and nowhere else.  If
    it were to appear across the border of a run, most of it would stand in the
    command already.

    Key theorems:
    - `covers_hideTriples`, `Covers.strip`: what the steps do to the glyphs,
    - `restoreTriples_rendered`: a glyph outside a run is not taken for a placeholder,
    - `body_edits`: the body is the command edited in place.
-/

namespace ClangDb

namespace Arguments

open Glyph

/-- Glyphs and what stands for them while the steps run: runs of three escaped quotes are hidden,
    the leftmost first, and other quotes may have lost their escape. -/
inductive Covers : List Glyph → List Glyph → Prop
  | nil : Covers [] []
  | triple {r r' : List Glyph} : Covers r r' →
      Covers (escapedQuote :: escapedQuote :: escapedQuote :: r) (placeholder.map .plain ++ r')
  | glyph {g g' : Glyph} {r r' : List Glyph} : (∀ r', ¬ Triple (g :: r) r') → g.Becomes g' →
      Covers r r' → Covers (g :: r) (g' :: r')

variable {g g' : Glyph} {gs hs r r' : List Glyph} {c d : CodePoint} {p s t : Text}

/-- What quotes lose their escapes behind a hidden run leaves the run as it is. -/
theorem loosens_plain_append (h : Loosens (p.map .plain ++ r) hs) :
    ∃ r', hs = p.map .plain ++ r' ∧ Loosens r r' := by
  induction p generalizing hs with
  | nil => exact ⟨hs, rfl, h⟩
  | cons c p ih =>
    cases h with
    | cons hg hmore =>
      obtain ⟨r', rfl, hr⟩ := ih hmore
      rcases hg with rfl | ⟨hquote, _⟩
      · exact ⟨r', rfl, hr⟩
      · cases hquote

/-- Runs that are hidden before quotes lose their escapes are covered. -/
theorem covers_hideTriples (h : Loosens (hideTriples gs) hs) : Covers gs hs := by
  induction gs using jump_induction Triple.length_lt generalizing hs with
  | nil =>
    cases h
    exact .nil
  | jump gs r htriple ih =>
    subst htriple
    rw [hideTriples_triple] at h
    obtain ⟨r', rfl, hr⟩ := loosens_plain_append h
    exact .triple (ih hr)
  | cons g r htriple ih =>
    rw [hideTriples_cons htriple] at h
    cases h with
    | cons hg hmore => exact .glyph htriple hg (ih hmore)

/-! ### The ends -/

theorem Glyph.Becomes.isBlank (h : g.Becomes g') : g'.isBlank = g.isBlank := by
  rcases h with rfl | ⟨rfl, rfl⟩
  · rfl
  · rfl

theorem Covers.dropWhile (h : Covers gs hs) :
    Covers (gs.dropWhile Glyph.isBlank) (hs.dropWhile Glyph.isBlank) := by
  induction h with
  | nil => exact .nil
  | triple h _ => exact .triple h
  | @glyph g g' r r' htriple hg h ih =>
    rw [List.dropWhile_cons, List.dropWhile_cons, hg.isBlank]
    cases g.isBlank with
    | true => exact ih
    | false => exact .glyph htriple hg h

theorem rdropWhile_cons (g : Glyph) (gs : List Glyph) :
    (g :: gs).rdropWhile Glyph.isBlank =
      if (gs.rdropWhile Glyph.isBlank).isEmpty ∧ g.isBlank = true then []
      else g :: gs.rdropWhile Glyph.isBlank := by
  simp only [List.rdropWhile, List.reverse_cons, List.dropWhile_append, List.isEmpty_reverse]
  cases hempty : (gs.reverse.dropWhile Glyph.isBlank).isEmpty with
  | false => simp
  | true =>
    rw [List.isEmpty_iff.mp hempty]
    cases hblank : g.isBlank with
    | true => simp [hblank]
    | false => simp [hblank]

theorem rdropWhile_cons_of_not_blank (hg : g.isBlank = false) (gs : List Glyph) :
    (g :: gs).rdropWhile Glyph.isBlank = g :: gs.rdropWhile Glyph.isBlank := by
  rw [rdropWhile_cons, if_neg]
  rw [hg]
  rintro ⟨_, h⟩
  cases h

theorem rdropWhile_plain_append (hp : ∀ c ∈ p, c.isBlank = false) (gs : List Glyph) :
    (p.map Glyph.plain ++ gs).rdropWhile Glyph.isBlank =
      p.map Glyph.plain ++ gs.rdropWhile Glyph.isBlank := by
  induction p with
  | nil => rfl
  | cons c p ih =>
    obtain ⟨hc, hmore⟩ := List.forall_mem_cons.mp hp
    have hplain : (Glyph.plain c).isBlank = false := hc
    rw [List.map_cons, List.cons_append, rdropWhile_cons_of_not_blank hplain, ih hmore]
    rfl

/-- Glyphs that begin with a run of three escaped quotes do so with white space behind them. -/
theorem not_triple_rdropWhile (h : ∀ r', ¬ Triple (g :: r) r') (r' : List Glyph) :
    ¬ Triple (g :: r.rdropWhile Glyph.isBlank) r' := by
  intro htriple
  obtain ⟨blanks, hr⟩ := List.rdropWhile_prefix Glyph.isBlank (l := r)
  apply h (r' ++ blanks)
  unfold Triple at htriple ⊢
  rw [← hr, ← List.cons_append, htriple]
  rfl

theorem Covers.isEmpty_eq (h : Covers gs hs) : hs.isEmpty = gs.isEmpty := by
  cases h with
  | nil => rfl
  | triple _ => rfl
  | glyph _ _ _ => rfl

theorem Covers.rdropWhile (h : Covers gs hs) :
    Covers (gs.rdropWhile Glyph.isBlank) (hs.rdropWhile Glyph.isBlank) := by
  induction h with
  | nil => exact .nil
  | triple _ ih =>
    have hinked : ∀ c ∈ placeholder, c.isBlank = false := by decide
    rw [rdropWhile_cons_of_not_blank rfl, rdropWhile_cons_of_not_blank rfl,
      rdropWhile_cons_of_not_blank rfl, rdropWhile_plain_append hinked]
    exact .triple ih
  | glyph htriple hg _ ih =>
    rw [rdropWhile_cons, rdropWhile_cons, hg.isBlank, ih.isEmpty_eq]
    split
    · exact .nil
    · exact .glyph (not_triple_rdropWhile htriple) hg ih

/-- What is stripped covers what is stripped. -/
theorem Covers.strip (h : Covers gs hs) : Covers (strip gs) (strip hs) := h.dropWhile.rdropWhile

/-! ### Placeholders -/

/-- What the placeholder has between its ends. -/
def mark : Text := "3Q_PLACEHOLDER"

/-- Where plain code points are rendered that no glyph but a plain one can be rendered to, the
    glyphs are these. -/
theorem plain_of_rendered {afterQuote : Bool}
    (hp : ∀ c ∈ p, c ∉ ([.char '\n', .char '"', .char '\\', .char '/'] : Text))
    (h : p <+: render afterQuote hs) : ∃ r, hs = p.map .plain ++ r := by
  induction p generalizing hs afterQuote with
  | nil => exact ⟨hs, rfl⟩
  | cons c p ih =>
    obtain ⟨hc, hmore⟩ := List.forall_mem_cons.mp hp
    cases hs with
    | nil => exact absurd (List.prefix_nil.mp h) (List.cons_ne_nil c p)
    | cons g r =>
      have hhead : ∀ d s, c :: p <+: d :: s → d ∈ ([.char '\n', .char '"', .char '\\', .char '/'] :
          Text) → False := by
        intro d s hprefix hd
        rw [(List.cons_prefix_cons.mp hprefix).1] at hc
        exact hc hd
      rw [render, Glyph.rendered] at h
      split at h
      · exact (hhead _ _ h (by decide)).elim
      · cases g with
        | plain d =>
          obtain ⟨rfl, hprefix⟩ := List.cons_prefix_cons.mp h
          obtain ⟨r, rfl⟩ := ih hmore hprefix
          exact ⟨r, rfl⟩
        | quote => exact (hhead _ _ h (by decide)).elim
        | escape d =>
          rw [Glyph.slashed] at h
          split at h
          · exact (hhead _ _ h (by decide)).elim
          · exact (hhead _ _ h (by decide)).elim

/-- A plain glyph stands for itself, if it does not begin a placeholder. -/
theorem Covers.plain_cons (h : Covers gs (.plain c :: .plain d :: r'))
    (hmark : ¬ (c = .char '_' ∧ d = .char '_')) :
    ∃ r, gs = .plain c :: r ∧ Covers r (.plain d :: r') := by
  generalize hhs : (.plain c :: .plain d :: r' : List Glyph) = hs at h
  cases h with
  | nil => cases hhs
  | triple _ =>
    obtain ⟨hc, hmore⟩ := List.cons.inj hhs
    obtain ⟨hd, _⟩ := List.cons.inj hmore
    exact absurd ⟨Glyph.plain.inj hc, Glyph.plain.inj hd⟩ hmark
  | @glyph g g' r r'' _ hg h =>
    obtain ⟨rfl, rfl⟩ := List.cons.inj hhs
    rcases hg with rfl | ⟨_, hquote⟩
    · exact ⟨r, rfl, h⟩
    · cases hquote

theorem Covers.plain_append
    (hp : (p ++ [d]).IsChain fun c d => ¬ (c = .char '_' ∧ d = .char '_'))
    (h : Covers gs ((p ++ [d]).map .plain ++ r')) : ∃ r, gs = p.map .plain ++ r := by
  induction p generalizing gs with
  | nil => exact ⟨gs, rfl⟩
  | cons c p ih =>
    cases hnext : p ++ [d] with
    | nil => exact absurd hnext (by simp)
    | cons e q =>
      rw [List.cons_append, hnext] at hp h
      obtain ⟨hpair, hmore⟩ := List.isChain_cons_cons.mp hp
      obtain ⟨r, rfl, hr⟩ := h.plain_cons hpair
      rw [← hnext] at hmore
      obtain ⟨r₁, rfl⟩ := ih hmore (by rw [hnext]; exact hr)
      exact ⟨r₁, rfl⟩

/-- **The rest of a placeholder is not rendered by glyphs of a text without its mark.** -/
theorem not_placeholder_of_free (h : Covers gs hs) (hfree : ¬ mark <:+: spell gs)
    (afterQuote : Bool) : ¬ placeholder.tail <+: render afterQuote hs := by
  intro hprefix
  obtain ⟨r', rfl⟩ := plain_of_rendered (by decide) hprefix
  -- two underscores in a row stand at the end only
  have hsplit : placeholder.tail =
      ((.char '_' :: mark) ++ [.char '_']) ++ [.char '_'] := by decide
  rw [hsplit, List.map_append, List.append_assoc] at h
  obtain ⟨r, rfl⟩ := h.plain_append (by decide)
  apply hfree
  rw [spell_append, spell_map_plain]
  exact ⟨[.char '_'], spell r, rfl⟩

theorem restoreTriples_cons (h : ¬ (c = .char '_' ∧ placeholder.tail <+: s)) :
    restoreTriples (c :: s) = c :: restoreTriples s := by
  refine Text.replaceAll_cons ?_ tripleQuote
  intro hprefix
  obtain ⟨hc, hs⟩ := List.cons_prefix_cons.mp hprefix
  exact h ⟨hc.symm, hs⟩

/-- **A glyph outside a run is not taken for a placeholder.** -/
theorem restoreTriples_rendered (h : Covers r r') (hfree : ¬ mark <:+: spell r)
    (afterQuote afterQuote' : Bool) (g : Glyph) :
    restoreTriples (g.rendered afterQuote ++ render afterQuote' r') =
      g.rendered afterQuote ++ restoreTriples (render afterQuote' r') := by
  have hpass : ∀ c, restoreTriples (c :: render afterQuote' r') =
      c :: restoreTriples (render afterQuote' r') := by
    intro c
    exact restoreTriples_cons fun hbegins =>
      not_placeholder_of_free h hfree afterQuote' hbegins.2
  by_cases hspace : afterQuote = true ∧ g = .plain (.char ' ')
  · rw [Glyph.rendered, if_pos hspace]
    exact hpass _
  · rw [Glyph.rendered, if_neg hspace]
    cases g with
    | plain c => exact hpass c
    | quote => exact hpass (.char '"')
    | escape c =>
      by_cases hc : c = .char '\\'
      · subst hc
        exact hpass (.char '/')
      · have hbackslash : restoreTriples (.char '\\' :: c :: render afterQuote' r') =
            .char '\\' :: restoreTriples (c :: render afterQuote' r') :=
          restoreTriples_cons fun hbegins => absurd hbegins.1 (by decide)
        rw [slashed_escape hc]
        exact hbackslash.trans (congrArg (fun s : Text => .char '\\' :: s) (hpass c))

theorem render_plain_append (hp : .char '"' ∉ p) (gs : List Glyph) :
    render false (p.map .plain ++ gs) = p ++ render false gs := by
  induction p with
  | nil => rfl
  | cons c p ih =>
    rw [List.mem_cons, not_or] at hp
    have hc : decide (c = .char '"') = false := decide_eq_false fun h => hp.1 h.symm
    have hglyph : render false ((c :: p).map .plain ++ gs) =
        (Glyph.plain c).rendered false ++ render (decide (c = .char '"')) (p.map .plain ++ gs) := rfl
    rw [hglyph, hc, ih hp.2, rendered_false]
    rfl

/-- A placeholder is rendered as it is, and the run comes back. -/
theorem restoreTriples_placeholder (afterQuote : Bool) (gs : List Glyph) :
    restoreTriples (render afterQuote (placeholder.map .plain ++ gs)) =
      tripleQuote ++ restoreTriples (render false gs) := by
  have hrender : render afterQuote (placeholder.map .plain ++ gs) =
      placeholder ++ render false gs := by
    show (Glyph.plain (.char '_')).rendered afterQuote ++
      render false (placeholder.tail.map .plain ++ gs) = _
    rw [rendered_of_ne (by decide), render_plain_append (by decide)]
    rfl
  rw [hrender]
  exact Text.replaceAll_append_self (by decide) tripleQuote (render false gs)

/-! ### Commands without runs -/

theorem hideTriples_eq_self (h : ¬ [escapedQuote, escapedQuote, escapedQuote] <:+: gs) :
    hideTriples gs = gs := by
  induction gs using jump_induction Triple.length_lt with
  | nil => rfl
  | jump gs r hrun _ => exact absurd ⟨[], r, hrun.symm⟩ h
  | cons g r hrun ih =>
    rw [hideTriples_cons hrun, ih fun hmore => h (hmore.trans (List.suffix_cons g r).isInfix)]

/-- Where no run is hidden none comes back. -/
theorem Covers.restoreTriples_eq_self (h : Covers gs hs)
    (hrun : ¬ [escapedQuote, escapedQuote, escapedQuote] <:+: gs) (hfree : ¬ mark <:+: spell gs)
    (afterQuote : Bool) : restoreTriples (render afterQuote hs) = render afterQuote hs := by
  induction h generalizing afterQuote with
  | nil => rfl
  | @triple r _ _ _ => exact absurd ⟨[], r, rfl⟩ hrun
  | @glyph g g' r r' _ _ h ih =>
    have hfree' : ¬ mark <:+: spell r := fun hmark =>
      hfree (hmark.trans (List.suffix_append g.spell (spell r)).isInfix)
    have hrun' : ¬ [escapedQuote, escapedQuote, escapedQuote] <:+: r := fun hmore =>
      hrun (hmore.trans (List.suffix_cons g r).isInfix)
    rw [render, restoreTriples_rendered h hfree', ih hrun' hfree']

theorem isInfix_strip (gs : List Glyph) : strip gs <:+: gs :=
  (List.rdropWhile_prefix _ _).isInfix.trans (List.dropWhile_suffix _).isInfix

/-- A command without the mark of a placeholder has none within its ends. -/
theorem not_mark_strip (hgs : ∀ g ∈ gs, g.Sound)
    (hfree : Text.contains (spell gs ++ t) mark = false) : ¬ mark <:+: spell (strip gs) := by
  intro hmark
  rw [spell_strip hgs] at hmark
  have htrim : Text.trim (spell gs) <:+: spell gs :=
    (Text.trimRight_begins _ _).isInfix.trans (List.dropWhile_suffix _).isInfix
  have hcommand := (hmark.trans htrim).trans (List.prefix_append (spell gs) t).isInfix
  rw [Text.contains_iff_infix.mpr hcommand] at hfree
  cases hfree

/-- **The body of a command without runs** is what is left of its glyphs. -/
theorem body_of_no_run (hgs : ∀ g ∈ gs, g.Sound ∧ g ≠ .quote) (ht : IsEnd t)
    (hfree : Text.contains (spell gs ++ t) mark = false)
    (hrun : ¬ [escapedQuote, escapedQuote, escapedQuote] <:+: gs) :
    body (spell gs ++ t) = render false (strip (unescaped gs)) := by
  have hcovers := (covers_hideTriples (loosens_unescaped (hideTriples gs))).strip
  have hrun' : ¬ [escapedQuote, escapedQuote, escapedQuote] <:+: strip gs := fun hmore =>
    hrun (hmore.trans (isInfix_strip gs))
  have hfree' := not_mark_strip (fun g hg => (hgs g hg).1) hfree
  rw [body_spell ht hgs, hcovers.restoreTriples_eq_self hrun' hfree', hideTriples_eq_self hrun]

/-! ### Edits -/

/-- Glyphs of a command and the text that they become, edited in place; `afterQuote` says whether
    the glyph before them is an escaped quote outside a run of three. -/
inductive Edits : (afterQuote : Bool) → List Glyph → Text → Prop
  | nil {q : Bool} : Edits q [] []
  /-- The leftmost run of three escaped quotes stays as it is. -/
  | triple {q : Bool} {gs r : List Glyph} {s : Text} : Triple gs r → Edits false r s →
      Edits q gs (tripleQuote ++ s)
  /-- An escaped quote stays as it is. -/
  | kept {q : Bool} {r : List Glyph} {s : Text} : (∀ r', ¬ Triple (escapedQuote :: r) r') →
      Edits true r s → Edits q (escapedQuote :: r) (.char '\\' :: .char '"' :: s)
  /-- An escaped quote loses its escape. -/
  | bared {q : Bool} {r : List Glyph} {s : Text} : (∀ r', ¬ Triple (escapedQuote :: r) r') →
      Edits true r s → Edits q (escapedQuote :: r) (.char '"' :: s)
  /-- An escaped backslash becomes a slash. -/
  | slash {q : Bool} {r : List Glyph} {s : Text} : Edits false r s →
      Edits q (backslash :: r) (.char '/' :: s)
  /-- Any other escape is unchanged. -/
  | escape {q : Bool} {c : CodePoint} {r : List Glyph} {s : Text} : c ≠ .char '"' →
      c ≠ .char '\\' → Edits false r s → Edits q (.escape c :: r) (.char '\\' :: c :: s)
  /-- A space directly behind a quote ends the line. -/
  | newline {r : List Glyph} {s : Text} : Edits false r s →
      Edits true (.plain (.char ' ') :: r) (.char '\n' :: s)
  /-- Any other code point is unchanged. -/
  | plain {q : Bool} {c : CodePoint} {r : List Glyph} {s : Text} :
      ¬ (q = true ∧ c = .char ' ') → Edits false r s → Edits q (.plain c :: r) (c :: s)

/-- One glyph is edited as it is rendered. -/
theorem edits_cons (hg : g.Sound ∧ g ≠ .quote) (htriple : ∀ r', ¬ Triple (g :: r) r')
    (hbecomes : g.Becomes g') {afterQuote : Bool} (h : Edits (g'.last = .char '"') r s) :
    Edits afterQuote (g :: r) (g'.rendered afterQuote ++ s) := by
  rcases hbecomes with rfl | ⟨rfl, rfl⟩
  · cases g' with
    | quote => exact absurd rfl hg.2
    | plain c =>
      have hlast : decide (c = .char '"') = false := decide_eq_false hg.1.1
      have hmore : Edits false r s := hlast ▸ h
      by_cases hspace : afterQuote = true ∧ c = .char ' '
      · obtain ⟨rfl, rfl⟩ := hspace
        exact .newline hmore
      · rw [Glyph.rendered, if_neg fun h => hspace ⟨h.1, Glyph.plain.inj h.2⟩]
        exact .plain hspace hmore
    | escape c =>
      rw [rendered_of_ne (by simp)]
      by_cases hquote : c = .char '"'
      · subst hquote
        exact .kept htriple h
      · have hlast : decide (c = .char '"') = false := decide_eq_false hquote
        have hmore : Edits false r s := hlast ▸ h
        by_cases hbackslash : c = .char '\\'
        · subst hbackslash
          exact .slash hmore
        · rw [slashed_escape hbackslash]
          exact .escape hquote hbackslash hmore
  · rw [rendered_of_ne (by decide)]
    exact .bared htriple h

/-- What covers glyphs without the mark of a placeholder is rendered into an edit of them. -/
theorem Covers.edits (h : Covers gs hs) (hgs : ∀ g ∈ gs, g.Sound ∧ g ≠ .quote)
    (hfree : ¬ mark <:+: spell gs) (afterQuote : Bool) :
    Edits afterQuote gs (restoreTriples (render afterQuote hs)) := by
  induction h generalizing afterQuote with
  | nil => exact .nil
  | @triple r r' _ ih =>
    rw [List.forall_mem_cons, List.forall_mem_cons, List.forall_mem_cons] at hgs
    have hfree' : ¬ mark <:+: spell r := fun hmark =>
      hfree (hmark.trans (List.suffix_append tripleQuote (spell r)).isInfix)
    rw [restoreTriples_placeholder]
    exact .triple rfl (ih hgs.2.2.2 hfree' false)
  | @glyph g g' r r' htriple hg h ih =>
    obtain ⟨hsound, hmore⟩ := List.forall_mem_cons.mp hgs
    have hfree' : ¬ mark <:+: spell r := fun hmark =>
      hfree (hmark.trans (List.suffix_append g.spell (spell r)).isInfix)
    rw [render, restoreTriples_rendered h hfree']
    exact edits_cons hsound htriple hg (ih hmore hfree' _)

/-- **Rewriting neither loses nor invents anything**: the body is the command without the end of
    the line and the white space at both ends, edited glyph by glyph. -/
theorem body_edits (hgs : ∀ g ∈ gs, g.Sound ∧ g ≠ .quote) (ht : IsEnd t)
    (hfree : Text.contains (spell gs ++ t) mark = false) :
    spell (strip gs) = Text.trim (spell gs) ∧ Edits false (strip gs) (body (spell gs ++ t)) := by
  have hsound : ∀ g ∈ gs, g.Sound := fun g hg => (hgs g hg).1
  have hstripped : ∀ g ∈ strip gs, g.Sound ∧ g ≠ .quote := fun g hg =>
    hgs g ((isInfix_strip gs).mem hg)
  refine ⟨spell_strip hsound, ?_⟩
  rw [body_spell ht hgs]
  exact (covers_hideTriples (loosens_unescaped _)).strip.edits hstripped
    (not_mark_strip hsound hfree) false

/-- A quoted argument, and behind it a run of three quotes before a backslash. -/
def quotedThenRun : List Glyph :=
  [.plain (.char ' '), escapedQuote, .plain (.char 'a'), escapedQuote, .plain (.char ' '),
    escapedQuote, escapedQuote, escapedQuote, backslash, .plain (.char 'x')]

theorem body_edits_quotedThenRun :
    (∀ g ∈ quotedThenRun, g.Sound ∧ g ≠ .quote) ∧
      Text.contains (spell quotedThenRun ++ [.char '"']) mark = false ∧
      body (spell quotedThenRun ++ [.char '"']) = "\"a\"\n\\\"\\\"\\\"/x" ∧
      Edits false (strip quotedThenRun) (body (spell quotedThenRun ++ [.char '"'])) :=
  ⟨by decide, by decide +kernel, by decide +kernel,
    (body_edits (by decide) (.inl rfl) (by decide +kernel)).2⟩

end Arguments

end ClangDb

import ClangDb.Proofs.ResponseFile.Loosening
import ClangDb.Proofs.ResponseFile.Words

/-! # Inline arguments keep their meaning

    The body of a response file is read as the same words as the command that it
    was made from, but for backslashes that have become slashes.

    Each step takes the escape from the quotes of one kind of boundary, and none
    changes what the later ones look at.  As every quote of the command stands at a
    boundary, no quote is escaped in the end, and the body lists the arguments.

    Key theorems:
    - `standing_loosen`: quotes of one kind of boundary lose their escapes,
    - `body_arguments`: the body lists the arguments,
    - `readWords_body`: its words are those of the command.
-/

namespace ClangDb

namespace Arguments

open Glyph

variable {g g' : Glyph} {gs hs : List Glyph} {c : CodePoint} {s s' t : Text} {a : Argument}
  {args : List Argument}

/-! ### Quotes lose their escape -/

/-- Holds of glyphs whose escaped quotes all stand where `P` says, of the glyphs before a quote,
    the nearest first, and those after it. -/
def Standing (P : List Glyph → List Glyph → Prop) (gs : List Glyph) : Prop :=
  ∀ b r, gs = b ++ escapedQuote :: r → P b.reverse r

/-- Holds of a place that stays what it is when quotes around it lose their escape. -/
def Steady (P : List Glyph → List Glyph → Prop) : Prop :=
  ∀ b b' r r', Loosens b b' → Loosens r r' → P b r → P b' r'

theorem Steady.or {P Q : List Glyph → List Glyph → Prop} (hP : Steady P) (hQ : Steady Q) :
    Steady fun b r => P b r ∨ Q b r := by
  intro b b' r r' hb hr h
  rcases h with h | h
  · exact .inl (hP b b' r r' hb hr h)
  · exact .inr (hQ b b' r r' hb hr h)

theorem Blind.steady {sheds : List Glyph → List Glyph → Bool} (h : Blind sheds) :
    Steady fun b r => sheds b r = true :=
  fun b b' r r' hb hr hsheds => (h b b' r r' hb hr).trans hsheds

/-- A quote that keeps its escape had it before, and was not to lose it where it stands. -/
theorem escaped_of_loosen {sheds : List Glyph → List Glyph → Bool} {before b' r' : List Glyph}
    (h : loosen sheds before gs = b' ++ escapedQuote :: r') :
    ∃ b r, gs = b ++ escapedQuote :: r ∧ Loosens b b' ∧ Loosens r r' ∧
      sheds (b.reverse ++ before) r = false := by
  induction gs generalizing before b' with
  | nil => exact absurd h.symm (List.append_ne_nil_of_right_ne_nil b' (List.cons_ne_nil _ _))
  | cons g gs ih =>
    rw [loosen] at h
    cases b' with
    | nil =>
      obtain ⟨hg, rfl⟩ := List.cons.inj h
      split at hg
      · cases hg
      · next hkept =>
        subst hg
        refine ⟨[], gs, rfl, .nil, loosens_loosen sheds _ gs, ?_⟩
        exact Bool.eq_false_iff.mpr fun hsheds => hkept ⟨rfl, hsheds⟩
    | cons g' b' =>
      obtain ⟨hg, hmore⟩ := List.cons.inj h
      obtain ⟨b, r, rfl, hb, hr, hsheds⟩ := ih hmore
      refine ⟨g :: b, r, rfl, .cons ?_ hb, hr, ?_⟩
      · have hfirst := loosens_loosen sheds before (g :: (b ++ escapedQuote :: r))
        rw [loosen, hg] at hfirst
        cases hfirst with
        | cons hbecomes _ => exact hbecomes
      · rw [List.reverse_cons, List.append_assoc]
        exact hsheds

/-- **Quotes of one kind of boundary lose their escapes**, and the others stand where they
    stood. -/
theorem standing_loosen {sheds : List Glyph → List Glyph → Bool}
    {P : List Glyph → List Glyph → Prop} (hP : Steady P)
    (h : Standing (fun b r => sheds b r = true ∨ P b r) gs) :
    Standing P (loosen sheds [] gs) := by
  intro b' r' hescaped
  obtain ⟨b, r, rfl, hb, hr, hsheds⟩ := escaped_of_loosen hescaped
  rw [List.append_nil] at hsheds
  rcases h b r rfl with hshed | hstands
  · rw [hshed] at hsheds
    cases hsheds
  · exact hP _ _ r r' (List.rel_reverse hb) hr hstands

/-- Holds of a place where a quote loses its escape. -/
def Sheds (b r : List Glyph) : Prop :=
  afterFlag (.char 'D') b r = true ∨ afterFlag (.char 'I') b r = true ∨
    beforeBlank b r = true ∨ afterBlank b r = true

/-- Quotes that all stand where they lose their escapes have none in the end. -/
theorem not_escaped_of_standing (h : Standing Sheds gs) : escapedQuote ∉ unescaped gs := by
  have hblanks := blind_beforeBlank.steady.or blind_afterBlank.steady
  have hdefines := standing_loosen ((blind_afterFlag (.char 'I')).steady.or hblanks) h
  have hincludes := standing_loosen hblanks hdefines
  have hpairs : Standing _ (loosen secondOfPair [] _) :=
    standing_loosen hblanks fun b r hescaped => .inr (hincludes b r hescaped)
  have hclosing := standing_loosen blind_afterBlank.steady hpairs
  have hopening : Standing (fun _ _ => False) (unescaped gs) :=
    standing_loosen (fun _ _ _ _ _ _ hfalse => hfalse)
      fun b r hescaped => .inl (hclosing b r hescaped)
  intro hmem
  obtain ⟨b, r, hsplit⟩ := List.append_of_mem hmem
  exact hopening b r hsplit

/-- The glyph of a code point when no quote is escaped. -/
def Glyph.ofBare (c : CodePoint) : Glyph := if c = .char '"' then .quote else ofCodePoint c

theorem last_ofBare (c : CodePoint) : (ofBare c).last = c := by
  rw [ofBare, ofCodePoint]
  split
  · next h => exact h.symm
  · split <;> rfl

theorem isBlank_ofBare (hc : c.isBlank = false) : (ofBare c).isBlank = false := by
  rw [ofBare, ofCodePoint]
  split
  · rfl
  · split
    · rfl
    · exact hc

theorem ofCodePoint_eq_escapedQuote_iff : ofCodePoint c = escapedQuote ↔ c = .char '"' := by
  constructor
  · intro h
    rw [ofCodePoint] at h
    split at h
    · exact Glyph.escape.inj h
    · cases h
  · rintro rfl
    rfl

/-- When none of the escaped quotes of a text is left, all are bare. -/
theorem eq_bare_of_loosens (h : Loosens (s.map ofCodePoint) hs) (hnone : escapedQuote ∉ hs) :
    hs = s.map ofBare := by
  induction s generalizing hs with
  | nil =>
    cases h
    rfl
  | cons c s ih =>
    cases h with
    | @cons _ g' _ hs hg hmore =>
      rw [List.mem_cons, not_or] at hnone
      have hfirst : g' = ofBare c := by
        rcases hg with rfl | ⟨hquote, rfl⟩
        · exact (if_neg fun hc => hnone.1 (ofCodePoint_eq_escapedQuote_iff.mpr hc).symm).symm
        · exact (if_pos (ofCodePoint_eq_escapedQuote_iff.mp hquote)).symm
      rw [hfirst, ih hmore hnone.2]
      rfl

/-! ### The quotes of a command -/

/-- A quote at the boundary of an argument stands where it loses its escape. -/
theorem sheds_of_atBoundary (h : AtBoundary s s') :
    Sheds (s.map ofCodePoint).reverse (s'.map ofCodePoint) := by
  rcases h with ⟨option, hoption, pre, rfl⟩ | rfl | hhead
  · rw [List.map_append, List.reverse_append]
    rcases option_cases hoption with rfl | rfl | rfl
    · exact .inr (.inr (.inr rfl))
    · exact .inl rfl
    · exact .inr (.inl rfl)
  · exact .inr (.inr (.inl rfl))
  · obtain ⟨r, rfl⟩ := List.head?_eq_some_iff.mp hhead
    exact .inr (.inr (.inl rfl))

theorem standing_line (hargs : ∀ a ∈ args, a.Valid) :
    Standing Sheds ((line args).map ofCodePoint) := by
  intro b r h
  obtain ⟨s, s₁, hline, rfl, hs₁⟩ := List.map_eq_append_iff.mp h
  obtain ⟨c, s', rfl, hc, rfl⟩ := List.map_eq_cons_iff.mp hs₁
  rw [ofCodePoint_eq_escapedQuote_iff.mp hc] at hline
  exact sheds_of_atBoundary (atBoundary_of_line hargs hline)

/-- Of three escaped quotes in a row the second does not stand at a boundary. -/
theorem not_run_of_standing (h : Standing Sheds gs) :
    ¬ [escapedQuote, escapedQuote, escapedQuote] <:+: gs := by
  rintro ⟨b, r, rfl⟩
  have hsecond := h (b ++ [escapedQuote]) (escapedQuote :: r) (by simp)
  rw [List.reverse_append] at hsecond
  rcases hsecond with h | h | h | h <;> cases h

theorem sound_ofCodePoint (c : CodePoint) : (ofCodePoint c).Sound ∧ ofCodePoint c ≠ .quote := by
  rw [ofCodePoint]
  split
  · next h =>
    refine ⟨?_, by intro h; cases h⟩
    rcases h with rfl | rfl <;> rfl
  · next h => exact ⟨not_or.mp h, by intro h; cases h⟩

/-! ### The body lists the arguments -/

theorem render_of_not_space (h : hs.head? ≠ some (.plain (.char ' '))) (afterQuote : Bool) :
    render afterQuote hs = render false hs := by
  cases hs with
  | nil => rfl
  | cons g r =>
    have hg : g ≠ .plain (.char ' ') := fun hg => h (congrArg some hg)
    rw [render, render, rendered_of_ne hg, rendered_of_ne hg]

/-- Text without quotes is rendered with slashes. -/
theorem render_bare_append (hs : .char '"' ∉ s) (gs : List Glyph) :
    render false (s.map ofBare ++ gs) =
      s.substitute (.char '\\') (.char '/') ++ render false gs := by
  induction s with
  | nil => rfl
  | cons c s ih =>
    rw [List.mem_cons, not_or] at hs
    have hc : c ≠ .char '"' := Ne.symm hs.1
    have hglyph : ofBare c = ofCodePoint c := if_neg hc
    have hslashed : (ofCodePoint c).slashed =
        [if c = .char '\\' then .char '/' else c] := by
      rw [ofCodePoint]
      by_cases hbackslash : c = .char '\\'
      · rw [if_pos (.inr hbackslash), if_pos hbackslash, Glyph.slashed, if_pos hbackslash]
      · rw [if_neg (not_or.mpr ⟨hc, hbackslash⟩), if_neg hbackslash, Glyph.slashed]
    rw [List.map_cons, List.cons_append, render, last_ofBare, decide_eq_false hc, ih hs.2,
      rendered_false, hglyph, hslashed]
    rfl

/-- An argument is rendered with slashes, and a quoted one has a quote at its end. -/
theorem render_argument (ha : a.Valid) (gs : List Glyph) :
    render false (a.text.map ofBare ++ gs) = a.slashed.text ++ render a.isQuoted gs := by
  cases a with
  | bare s => exact render_bare_append ha.2.1 gs
  | quoted option s =>
    obtain ⟨hoption, hs, hhead⟩ := ha
    have hquote : ∀ gs, render false (.quote :: gs) = .char '"' :: render true gs := fun _ => rfl
    have hinside : (s.map ofBare ++ .quote :: gs).head? ≠ some (.plain (.char ' ')) := by
      cases s with
      | nil => simp
      | cons c s =>
        intro h
        have hc : ofBare c = .plain (.char ' ') := Option.some.inj h
        exact hhead (congrArg some ((last_ofBare c).symm.trans (congrArg Glyph.last hc)))
    have htext : (Argument.quoted option s).text.map ofBare ++ gs =
        option.map ofBare ++ .quote :: (s.map ofBare ++ .quote :: gs) := by
      simp [Argument.text, ofBare]
    rw [htext, render_bare_append (option_plain hoption).1, hquote, render_of_not_space hinside,
      render_bare_append hs, hquote, substitute_option hoption]
    simp [Argument.slashed, Argument.text, Argument.isQuoted]

theorem render_line (hargs : ∀ a ∈ args, a.Valid) (afterQuote : Bool) :
    render afterQuote ((line args).map ofBare) =
      lines afterQuote (args.map Argument.slashed) := by
  induction args generalizing afterQuote with
  | nil => rfl
  | cons a args ih =>
    obtain ⟨ha, hmore⟩ := List.forall_mem_cons.mp hargs
    have hline : (line (a :: args)).map ofBare =
        .plain (.char ' ') :: (a.text.map ofBare ++ (line args).map ofBare) :=
      congrArg (Glyph.plain (.char ' ') :: ·) List.map_append
    have hspace : (Glyph.plain (.char ' ')).rendered afterQuote =
        [.char (if afterQuote then '\n' else ' ')] := by
      cases afterQuote <;> rfl
    rw [hline, render, hspace]
    change _ :: render false (a.text.map ofBare ++ (line args).map ofBare) = _
    rw [render_argument ha, ih hmore, List.map_cons, lines, isQuoted_slashed]

/-- An argument has no white space at its ends. -/
theorem argument_ends (ha : a.Valid) :
    (∃ c r, a.text = c :: r ∧ c.isBlank = false) ∧
      ∃ r c, a.text = r ++ [c] ∧ c.isBlank = false := by
  cases a with
  | bare s =>
    obtain ⟨hne, _, hblank⟩ := ha
    constructor
    · obtain ⟨c, r, rfl⟩ := List.exists_cons_of_ne_nil hne
      exact ⟨c, r, rfl, hblank c List.mem_cons_self⟩
    · obtain ⟨r, c, rfl⟩ := (List.eq_nil_or_concat' s).resolve_left hne
      exact ⟨r, c, rfl, hblank c (List.mem_append_right r List.mem_cons_self)⟩
  | quoted option s =>
    obtain ⟨hoption, _⟩ := ha
    constructor
    · cases option with
      | nil => exact ⟨.char '"', s ++ [.char '"'], rfl, by decide⟩
      | cons c o => exact ⟨c, _, rfl, (option_plain hoption).2.2 c List.mem_cons_self⟩
    · refine ⟨option ++ .char '"' :: s, .char '"', ?_, by decide⟩
      rw [List.append_assoc]
      rfl

theorem line_ends (ha : a.Valid) (hargs : ∀ a ∈ args, a.Valid) :
    ∃ r c, a.text ++ line args = r ++ [c] ∧ c.isBlank = false := by
  induction args generalizing a with
  | nil =>
    rw [line, List.flatMap_nil, List.append_nil]
    exact (argument_ends ha).2
  | cons a' args ih =>
    obtain ⟨ha', hmore⟩ := List.forall_mem_cons.mp hargs
    obtain ⟨r, c, hend, hc⟩ := ih ha' hmore
    refine ⟨a.text ++ .char ' ' :: r, c, ?_, hc⟩
    rw [List.append_assoc, List.cons_append, ← hend]
    rfl

/-- Of a command only the space before the first argument is stripped. -/
theorem strip_line (hargs : ∀ a ∈ args, a.Valid) :
    strip ((line args).map ofBare) = (line args).tail.map ofBare := by
  cases args with
  | nil => rfl
  | cons a args =>
    obtain ⟨ha, hmore⟩ := List.forall_mem_cons.mp hargs
    obtain ⟨⟨c, r, hhead, hc⟩, _⟩ := argument_ends ha
    obtain ⟨r', c', hend, hc'⟩ := line_ends ha hmore
    have hline : (line (a :: args)).map ofBare =
        [.plain (.char ' ')] ++ (a.text ++ line args).map ofBare := rfl
    rw [hline, strip_append (by decide)]
    · rfl
    · exact ⟨ofBare c, (r ++ line args).map ofBare, by rw [hhead]; rfl, isBlank_ofBare hc⟩
    · exact ⟨r'.map ofBare, ofBare c', by rw [hend, List.map_append]; rfl, isBlank_ofBare hc'⟩

/-- **The body lists the arguments**, with slashes for backslashes. -/
theorem body_arguments (hargs : ∀ a ∈ args, a.Valid) (ht : IsEnd t)
    (hfree : Text.contains (spell ((line args).map ofCodePoint) ++ t) mark = false) :
    body (spell ((line args).map ofCodePoint) ++ t) =
      (lines false (args.map Argument.slashed)).tail := by
  have hglyphs : ∀ g ∈ (line args).map ofCodePoint, g.Sound ∧ g ≠ .quote := by
    intro g hg
    obtain ⟨c, _, rfl⟩ := List.mem_map.mp hg
    exact sound_ofCodePoint c
  have hstanding := standing_line hargs
  have hbare : unescaped ((line args).map ofCodePoint) = (line args).map ofBare :=
    eq_bare_of_loosens (loosens_unescaped _) (not_escaped_of_standing hstanding)
  rw [body_of_no_run hglyphs ht hfree (not_run_of_standing hstanding), hbare, strip_line hargs,
    ← render_line hargs]
  cases args with
  | nil => rfl
  | cons a args => rfl

/-- **Inline arguments keep their meaning**: the body is read as the words of the command, with
    slashes for backslashes. -/
theorem readWords_body (hargs : ∀ a ∈ args, a.Valid) (ht : IsEnd t)
    (hfree : Text.contains (spell ((line args).map ofCodePoint) ++ t) mark = false) :
    readWords (body (spell ((line args).map ofCodePoint) ++ t)) =
      (readWords (line args)).map (·.substitute (.char '\\') (.char '/')) := by
  have hslashed : ∀ a ∈ args.map Argument.slashed, a.Valid := by
    intro a' ha'
    obtain ⟨a, ha, rfl⟩ := List.mem_map.mp ha'
    exact (hargs a ha).slashed
  have htail : ∀ args, readWords (lines false args).tail = readWords (lines false args) := by
    intro args
    cases args with
    | nil => rfl
    | cons a args => exact (wordsFrom_separator rfl none _).symm
  have hwords : ∀ a ∈ args, a.slashed.word = a.word.substitute (.char '\\') (.char '/') :=
    fun a ha => word_slashed (hargs a ha)
  rw [body_arguments hargs ht hfree, htail, readWords_lines hslashed, readWords_line hargs,
    List.map_map, List.map_map]
  exact List.map_congr_left hwords

/-- A path with a backslash before its closing quote, an empty definition and an include. -/
def mixedArguments : List Argument :=
  [.bare "/c", .quoted "" "C:\\a b\\", .quoted "-D" "", .quoted "-I" "x y"]

theorem readWords_body_mixedArguments :
    (∀ a ∈ mixedArguments, a.Valid) ∧
      Text.contains (spell ((line mixedArguments).map ofCodePoint) ++ [.char '"', .char ','])
        mark = false ∧
      (readWords (line mixedArguments)).map (·.substitute (.char '\\') (.char '/')) =
        ["/c", "C:/a b/", "-D", "-Ix y"] ∧
      readWords (body (spell ((line mixedArguments).map ofCodePoint) ++
        [.char '"', .char ','])) =
        (readWords (line mixedArguments)).map (·.substitute (.char '\\') (.char '/')) :=
  ⟨by decide, by decide +kernel, by decide +kernel,
    readWords_body (by decide) (.inr rfl) (by decide +kernel)⟩

end Arguments

end ClangDb

import ClangDb.Proofs.ResponseFile.Loosening

/-! # Pairs of quotes

    A command may hold a value in quotes right behind a name, as in `-DNAME="a b"`
    or `/FI"a.h"`.  Its quotes are never side by side, so all steps that take
    escapes away are one: a quote is bare in the body if it stands behind `-D` or
    `-I`, behind white space, before white space or at the end.

    So the closing quote of a value is always bare.  The opening one is bare only
    if the name is empty or ends in `-D` or `-I`, or if the value begins with white
    space.  Else it keeps its escape, and what the two held together falls apart.

    Key theorems:
    - `loosen_layout`: what becomes of the quotes,
    - `restoreTriples_layout`: how the arguments are written then,
    - `body_pairs`: the body, and when the quotes of a value are alike.
-/

namespace ClangDb

namespace Arguments

open Glyph

variable {g : Glyph} {gs r ctx before : List Glyph} {c letter : CodePoint}
  {s t name : Text} {value : List Glyph} {spaced : Bool}

/-! ### Arguments with values -/

/-- Holds of a glyph inside an argument, which is no quote. -/
def Glyph.Inner (g : Glyph) : Prop := g.Sound ∧ g ≠ .quote ∧ g ≠ escapedQuote

instance : DecidablePred Glyph.Inner := fun g =>
  inferInstanceAs (Decidable (g.Sound ∧ g ≠ .quote ∧ g ≠ escapedQuote))

/-- An argument as a command holds it: glyphs, or a value in quotes right behind a name. -/
inductive EscapedArgument where
  | bare (gs : List Glyph)
  | valued (name : Text) (value : List Glyph)

namespace EscapedArgument

/-- The glyphs of an argument with its quotes. -/
def glyphs (quotes : Glyph × Glyph) : EscapedArgument → List Glyph
  | .bare gs => gs
  | .valued name value => name.map .plain ++ quotes.1 :: (value ++ [quotes.2])

/-- Holds of an argument that can be told apart: there is no quote in it but the two around a
    value, and no white space outside them. -/
def Valid : EscapedArgument → Prop
  | .bare gs => gs ≠ [] ∧ ∀ g ∈ gs, g.Inner ∧ g.isBlank = false
  | .valued name value =>
    (∀ c ∈ name, (c ≠ .char '"' ∧ c ≠ .char '\\') ∧ c.isBlank = false) ∧
      value ≠ [] ∧ ∀ g ∈ value, g.Inner

instance : DecidablePred Valid
  | .bare gs => inferInstanceAs (Decidable (gs ≠ [] ∧ ∀ g ∈ gs, g.Inner ∧ g.isBlank = false))
  | .valued name value => inferInstanceAs (Decidable
      ((∀ c ∈ name, (c ≠ .char '"' ∧ c ≠ .char '\\') ∧ c.isBlank = false) ∧
        value ≠ [] ∧ ∀ g ∈ value, g.Inner))

/-- The text of an argument in the body, with its quotes. -/
def text (quotes : Glyph × Glyph) : EscapedArgument → Text
  | .bare gs => restoreTriples (render false gs)
  | .valued name value =>
    restoreTriples name ++ (quotes.1.spell ++ (restoreTriples (render true value) ++ quotes.2.spell))

/-- Whether an argument ends with a quote. -/
def isValued : EscapedArgument → Bool
  | .bare _ => false
  | .valued .. => true

end EscapedArgument

variable {a : EscapedArgument} {args : List EscapedArgument} {quotes : Glyph × Glyph}

/-- The two quotes of each argument, given whether a space stands before it. -/
abbrev Quoting := Bool → EscapedArgument → Glyph × Glyph

/-- The glyphs of arguments with a space between two, and one before the first if it is
    spaced. -/
def layout (quoting : Quoting) : (spaced : Bool) → List EscapedArgument → List Glyph
  | _, [] => []
  | spaced, a :: args =>
    (if spaced then [.plain (.char ' ')] else []) ++
      (a.glyphs (quoting spaced a) ++ layout quoting true args)

/-- The text of arguments in the body: the line ends behind each that has a value. -/
def written (quoting : Quoting) : (spaced : Bool) → List EscapedArgument → Text
  | _, [] => []
  | spaced, [a] => a.text (quoting spaced a)
  | spaced, a :: a' :: args =>
    a.text (quoting spaced a) ++
      .char (if a.isValued then '\n' else ' ') :: written quoting true (a' :: args)

/-- All quotes have their escapes. -/
def Quoting.escaped : Quoting := fun _ _ => (escapedQuote, escapedQuote)

/-- Whether the opening quote of a value loses its escape: it stands behind a space or behind one
    of two options, or before white space. -/
def opens (spaced : Bool) (name : Text) (value : List Glyph) : Bool :=
  name.endsWith "-D" || name.endsWith "-I" || value.head?.any Glyph.isBlank ||
    (spaced && name.isEmpty)

/-- Closing quotes are bare, and opening ones where they lose their escape. -/
def Quoting.settled : Quoting
  | _, .bare _ => (.quote, .quote)
  | spaced, .valued name value =>
    (if opens spaced name value = true then .quote else escapedQuote, .quote)

/-! ### What becomes of the quotes -/

theorem Glyph.Inner.not_mem (h : ∀ g ∈ gs, g.Inner) : escapedQuote ∉ gs :=
  fun hmem => (h _ hmem).2.2 rfl

theorem escapedQuote_not_mem_name (name : Text) : escapedQuote ∉ name.map Glyph.plain := by
  simp

theorem lone_cons (hg : g = escapedQuote → gs.head? ≠ some escapedQuote) (h : Lone gs) :
    Lone (g :: gs) := by
  cases gs with
  | nil => exact .singleton g
  | cons g' gs =>
    refine .cons_cons ?_ h
    rintro ⟨hfirst, rfl⟩
    exact hg hfirst rfl

theorem lone_append (hgs : escapedQuote ∉ gs) (h : Lone r) : Lone (gs ++ r) := by
  induction gs with
  | nil => exact h
  | cons g gs ih =>
    rw [List.mem_cons, not_or] at hgs
    exact lone_cons (fun hg => absurd hg.symm hgs.1) (ih hgs.2)

/-- Behind an argument there is a space or nothing. -/
theorem head?_layout (quoting : Quoting) (args : List EscapedArgument) :
    layout quoting true args = [] ∨ ∃ r, layout quoting true args = .plain (.char ' ') :: r := by
  cases args with
  | nil => exact .inl rfl
  | cons a args => exact .inr ⟨_, rfl⟩

theorem escapedQuote_not_mem_lead (spaced : Bool) :
    escapedQuote ∉ (if spaced then [Glyph.plain (.char ' ')] else []) := by
  cases spaced <;> decide

/-- No two quotes of such a command are side by side. -/
theorem lone_layout (hargs : ∀ a ∈ args, a.Valid) (spaced : Bool) :
    Lone (layout .escaped spaced args) := by
  induction args generalizing spaced with
  | nil => exact .nil
  | cons a args ih =>
    obtain ⟨ha, hmore⟩ := List.forall_mem_cons.mp hargs
    have hrest := ih hmore true
    refine lone_append (escapedQuote_not_mem_lead spaced) ?_
    cases a with
    | bare gs => exact lone_append (Inner.not_mem fun g hg => (ha.2 g hg).1) hrest
    | valued name value =>
      obtain ⟨_, hne, hvalue⟩ := ha
      -- behind the closing quote is a space or nothing, and behind the opening one the value
      have hclosing : Lone (escapedQuote :: layout .escaped true args) := by
        refine lone_cons (fun _ => ?_) hrest
        rcases head?_layout .escaped args with hnil | ⟨r, hspace⟩
        · simp [hnil]
        · simp [hspace]
      have hopening : Lone (escapedQuote :: (value ++ escapedQuote :: layout .escaped true args)) := by
        refine lone_cons (fun _ => ?_) (lone_append (Inner.not_mem hvalue) hclosing)
        obtain ⟨g, value, rfl⟩ := List.exists_cons_of_ne_nil hne
        exact fun h => (hvalue g List.mem_cons_self).2.2 (Option.some.inj h)
      have hglyphs := lone_append (escapedQuote_not_mem_name name) hopening
      simpa [EscapedArgument.glyphs, Quoting.escaped] using hglyphs

/-- A quote stands behind an option exactly if the name before it ends with the option. -/
theorem afterFlag_name (hletter : letter ≠ .char ' ')
    (hctx : ∀ g ∈ ctx.head?, g = .plain (.char ' ')) (name : Text) (r : List Glyph) :
    afterFlag letter ((name.map Glyph.plain).reverse ++ ctx) r =
      name.endsWith [.char '-', letter] := by
  rw [Bool.eq_iff_iff, afterFlag_eq_true_iff, Text.endsWith, List.isSuffixOf_iff_suffix]
  constructor
  · rintro ⟨g, b, hname, hg⟩
    rcases List.eq_nil_or_concat' name with rfl | ⟨n, d, rfl⟩
    · -- a space is no option
      have hspace := hctx (.plain letter) (by rw [show ctx = _ from hname]; rfl)
      exact absurd (Glyph.plain.inj hspace) hletter
    · rw [List.map_append, List.reverse_append] at hname
      obtain ⟨hd, hmore⟩ := List.cons.inj hname
      rcases List.eq_nil_or_concat' n with rfl | ⟨m, e, rfl⟩
      · have hspace := hctx g (by rw [show ctx = _ from hmore]; rfl)
        rw [hspace] at hg
        exact absurd hg (by decide)
      · rw [List.map_append, List.reverse_append] at hmore
        obtain ⟨rfl, _⟩ := List.cons.inj hmore
        obtain rfl : e = .char '-' := hg
        exact ⟨m, by simp [Glyph.plain.inj hd]⟩
  · rintro ⟨m, rfl⟩
    exact ⟨.plain (.char '-'), (m.map .plain).reverse ++ ctx, by simp, rfl⟩

theorem afterBlank_name (hctx : ctx.head? = if spaced then some (.plain (.char ' ')) else none)
    (hname : ∀ c ∈ name, c.isBlank = false) (r : List Glyph) :
    afterBlank ((name.map Glyph.plain).reverse ++ ctx) r = (spaced && name.isEmpty) := by
  rcases List.eq_nil_or_concat' name with rfl | ⟨n, d, rfl⟩
  · show ctx.head?.any Glyph.isBlank = (spaced && true)
    rw [hctx]
    cases spaced <;> rfl
  · have hd : d.isBlank = false := hname d (by simp)
    simp [afterBlank, Glyph.isBlank, hd]

/-- The opening quote of a value loses its escape where the name and the value say so. -/
theorem sheds_opening (hctx : ctx.head? = if spaced then some (.plain (.char ' ')) else none)
    (hname : ∀ c ∈ name, c.isBlank = false) (hvalue : value ≠ []) (r : List Glyph) :
    sheds ((name.map Glyph.plain).reverse ++ ctx) (value ++ r) = opens spaced name value := by
  have hspace : ∀ g ∈ ctx.head?, g = .plain (.char ' ') := by
    intro g hg
    rw [hctx] at hg
    cases spaced with
    | true => exact (Option.some.inj hg).symm
    | false => cases hg
  obtain ⟨g, value, rfl⟩ := List.exists_cons_of_ne_nil hvalue
  unfold sheds opens
  rw [afterFlag_name (by decide) hspace, afterFlag_name (by decide) hspace,
    afterBlank_name hctx hname]
  rfl

/-- The closing quote of a value always loses its escape. -/
theorem sheds_closing (quoting : Quoting) (args : List EscapedArgument) (before : List Glyph) :
    sheds before (layout quoting true args) = true := by
  have hblank : beforeBlank before (layout quoting true args) = true := by
    rcases head?_layout quoting args with hnil | ⟨r, hspace⟩
    · rw [hnil]
      rfl
    · rw [hspace]
      rfl
  rw [sheds, hblank, Bool.or_true, Bool.true_or]

/-- **What becomes of the quotes** of a command. -/
theorem loosen_layout (hargs : ∀ a ∈ args, a.Valid) (hbefore : spaced = false → before = []) :
    loosen sheds before (layout .escaped spaced args) = layout .settled spaced args := by
  induction args generalizing spaced before with
  | nil => rfl
  | cons a args ih =>
    obtain ⟨ha, hmore⟩ := List.forall_mem_cons.mp hargs
    -- only the first argument of all may have nothing before it
    have hrest : ∀ b, loosen sheds b (layout .escaped true args) = layout .settled true args :=
      fun b => ih hmore fun h => by cases h
    rw [layout, layout, loosen_append (escapedQuote_not_mem_lead spaced)]
    congr 1
    cases a with
    | bare gs =>
      show loosen sheds _ (gs ++ layout .escaped true args) = gs ++ _
      rw [loosen_append (Inner.not_mem fun g hg => (ha.2 g hg).1), hrest]
    | valued name value =>
      obtain ⟨hname, hne, hvalue⟩ := ha
      have hctx : ((if spaced then [Glyph.plain (.char ' ')] else []).reverse ++ before).head? =
          if spaced then some (.plain (.char ' ')) else none := by
        cases spaced with
        | true => rfl
        | false => rw [hbefore rfl]; rfl
      have hopening := sheds_opening hctx (fun c hc => (hname c hc).2) hne
        (escapedQuote :: layout .escaped true args)
      simp only [EscapedArgument.glyphs, Quoting.escaped, Quoting.settled, List.append_assoc,
        List.cons_append, List.nil_append]
      rw [loosen_append (escapedQuote_not_mem_name name), loosen, hopening,
        loosen_append (Inner.not_mem hvalue), loosen, sheds_closing, hrest]
      simp

/-! ### How the arguments are written -/

theorem Glyph.Inner.last_ne (h : g.Inner) : g.last ≠ .char '"' := by
  obtain ⟨hsound, hquote, hescaped⟩ := h
  cases g with
  | plain c => exact hsound.1
  | escape c => exact fun hc => hescaped (congrArg Glyph.escape hc)
  | quote => exact absurd rfl hquote

/-- Glyphs behind others that are no quotes are rendered by themselves. -/
theorem render_append (hgs : ∀ g ∈ gs, g.Inner) (afterQuote : Bool) (hs : List Glyph) :
    render afterQuote (gs ++ hs) = render afterQuote gs ++ render (afterQuote && gs.isEmpty) hs := by
  induction gs generalizing afterQuote with
  | nil => rw [List.nil_append, render, List.nil_append, List.isEmpty_nil, Bool.and_true]
  | cons g gs ih =>
    obtain ⟨hg, hmore⟩ := List.forall_mem_cons.mp hgs
    rw [List.cons_append, render, render, decide_eq_false hg.last_ne, ih hmore, Bool.false_and,
      List.isEmpty_cons, Bool.and_false, List.append_assoc]

/-- Holds of a quote with its escape or without. -/
def Glyph.IsQuote (g : Glyph) : Prop := g = .quote ∨ g = escapedQuote

theorem render_quote (hg : g.IsQuote) (afterQuote : Bool) (gs : List Glyph) :
    render afterQuote (g :: gs) = g.spell ++ render true gs := by
  obtain ⟨hlast, hspace, hslashed⟩ :
      g.last = .char '"' ∧ g ≠ .plain (.char ' ') ∧ g.slashed = g.spell := by
    rcases hg with rfl | rfl <;> decide
  rw [render, rendered_of_ne hspace, hslashed, decide_eq_true hlast]

theorem restoreTriples_append (hc : c ∉ placeholder) (s t : Text) :
    restoreTriples (s ++ c :: t) = restoreTriples s ++ c :: restoreTriples t :=
  Text.replaceAll_append_cons (by decide) hc tripleQuote s t

theorem restoreTriples_quote (hg : g.IsQuote) (s t : Text) :
    restoreTriples (s ++ (g.spell ++ t)) = restoreTriples s ++ (g.spell ++ restoreTriples t) := by
  have hquote := restoreTriples_append (c := .char '"') (by decide)
  rcases hg with rfl | rfl
  · exact hquote s t
  · have hescape := restoreTriples_append (c := .char '\\') (by decide) s (.char '"' :: t)
    exact hescape.trans (congrArg (fun t : Text => restoreTriples s ++ .char '\\' :: t) (hquote [] t))

theorem render_space (afterQuote : Bool) (gs : List Glyph) :
    render afterQuote (.plain (.char ' ') :: gs) =
      .char (if afterQuote then '\n' else ' ') :: render false gs := by
  cases afterQuote <;> rfl

theorem separator_not_mem (afterQuote : Bool) :
    CodePoint.char (if afterQuote then '\n' else ' ') ∉ placeholder := by
  cases afterQuote <;> decide

/-- An argument is written by itself, and then what follows it. -/
theorem restoreTriples_argument (ha : a.Valid) (hopening : quotes.1.IsQuote)
    (hclosing : quotes.2.IsQuote) (hr : r = [] ∨ ∃ r', r = .plain (.char ' ') :: r') :
    restoreTriples (render false (a.glyphs quotes ++ r)) =
      a.text quotes ++ restoreTriples (render a.isValued r) := by
  -- quotes and spaces are not in the placeholder, so none is found across one of them
  cases a with
  | bare gs =>
    obtain ⟨_, hgs⟩ := ha
    show restoreTriples (render false (gs ++ r)) = restoreTriples (render false gs) ++ _
    rw [render_append fun g hg => (hgs g hg).1, Bool.false_and]
    rcases hr with rfl | ⟨r', rfl⟩
    · exact (congrArg restoreTriples (List.append_nil _)).trans (List.append_nil _).symm
    · rw [render_space, restoreTriples_append (separator_not_mem false)]
      exact congrArg _ (restoreTriples_append (separator_not_mem false) [] _).symm
  | valued name value =>
    obtain ⟨hname, hne, hvalue⟩ := ha
    have hquote : .char '"' ∉ name := fun hmem => (hname _ hmem).1.1 rfl
    have hempty : value.isEmpty = false := by simpa using hne
    have hglyphs : (EscapedArgument.valued name value).glyphs quotes ++ r =
        name.map .plain ++ quotes.1 :: (value ++ quotes.2 :: r) := by
      simp [EscapedArgument.glyphs]
    rw [hglyphs, render_plain_append hquote, render_quote hopening, render_append hvalue, hempty,
      render_quote hclosing, restoreTriples_quote hopening, restoreTriples_quote hclosing]
    simp [EscapedArgument.text, EscapedArgument.isValued]

theorem isQuote_settled (spaced : Bool) (a : EscapedArgument) :
    (Quoting.settled spaced a).1.IsQuote ∧ (Quoting.settled spaced a).2.IsQuote := by
  cases a with
  | bare gs => exact ⟨.inl rfl, .inl rfl⟩
  | valued name value =>
    refine ⟨?_, .inl rfl⟩
    by_cases h : opens spaced name value = true
    · exact .inl (if_pos h)
    · exact .inr (if_neg h)

/-- **How the arguments are written** when the quotes have lost their escapes. -/
theorem restoreTriples_layout (ha : a.Valid) (hargs : ∀ a ∈ args, a.Valid) (spaced : Bool) :
    restoreTriples (render false (a.glyphs (Quoting.settled spaced a) ++ layout .settled true args)) =
      written .settled spaced (a :: args) := by
  obtain ⟨hopening, hclosing⟩ := isQuote_settled spaced a
  rw [restoreTriples_argument ha hopening hclosing (head?_layout .settled args)]
  -- what follows the first argument begins with the space that its last glyph may break
  induction args generalizing a spaced with
  | nil => exact List.append_nil _
  | cons a' args ih =>
    obtain ⟨ha', hmore⟩ := List.forall_mem_cons.mp hargs
    obtain ⟨hopening', hclosing'⟩ := isQuote_settled true a'
    have hspace : layout .settled true (a' :: args) =
        .plain (.char ' ') :: (a'.glyphs (Quoting.settled true a') ++ layout .settled true args) := rfl
    have hnext := ih ha' hmore true hopening' hclosing'
    rw [written, ← hnext, hspace, render_space,
      ← restoreTriples_argument ha' hopening' hclosing' (head?_layout .settled args)]
    exact congrArg _ (restoreTriples_append (separator_not_mem a.isValued) [] _)

theorem glyphs_ends (ha : a.Valid) (spaced : Bool) :
    (∃ g r, a.glyphs (Quoting.settled spaced a) = g :: r ∧ g.isBlank = false) ∧
      ∃ r g, a.glyphs (Quoting.settled spaced a) = r ++ [g] ∧ g.isBlank = false := by
  cases a with
  | bare gs =>
    obtain ⟨hne, hgs⟩ := ha
    constructor
    · obtain ⟨g, r, rfl⟩ := List.exists_cons_of_ne_nil hne
      exact ⟨g, r, rfl, (hgs g List.mem_cons_self).2⟩
    · obtain ⟨r, g, rfl⟩ := (List.eq_nil_or_concat' gs).resolve_left hne
      exact ⟨r, g, rfl, (hgs g (by simp)).2⟩
  | valued name value =>
    obtain ⟨hopening, _⟩ := isQuote_settled spaced (.valued name value)
    constructor
    · cases name with
      | nil =>
        refine ⟨_, _, rfl, ?_⟩
        rcases hopening with h | h <;> rw [h] <;> rfl
      | cons c name => exact ⟨_, _, rfl, (ha.1 c List.mem_cons_self).2⟩
    · refine ⟨name.map .plain ++ (Quoting.settled spaced (.valued name value)).1 :: value, .quote,
        ?_, rfl⟩
      simp [EscapedArgument.glyphs, Quoting.settled]

theorem layout_ends (ha : a.Valid) (hargs : ∀ a ∈ args, a.Valid) (spaced : Bool) :
    ∃ r g, a.glyphs (Quoting.settled spaced a) ++ layout .settled true args = r ++ [g] ∧
      g.isBlank = false := by
  induction args generalizing a spaced with
  | nil =>
    rw [layout, List.append_nil]
    exact (glyphs_ends ha spaced).2
  | cons a' args ih =>
    obtain ⟨ha', hmore⟩ := List.forall_mem_cons.mp hargs
    obtain ⟨r, g, hend, hg⟩ := ih ha' hmore true
    refine ⟨a.glyphs (Quoting.settled spaced a) ++ .plain (.char ' ') :: r, g, ?_, hg⟩
    rw [List.append_assoc, List.cons_append, ← hend]
    rfl

/-- Of a command only the space before the first argument is stripped. -/
theorem strip_layout (ha : a.Valid) (hargs : ∀ a ∈ args, a.Valid) (spaced : Bool) :
    strip (layout .settled spaced (a :: args)) =
      a.glyphs (Quoting.settled spaced a) ++ layout .settled true args := by
  obtain ⟨⟨g, r, hhead, hg⟩, _⟩ := glyphs_ends ha spaced
  refine strip_append ?_ ⟨g, _, by rw [hhead]; rfl, hg⟩ (layout_ends ha hargs spaced)
  cases spaced <;> decide

/-! ### The body -/

theorem sound_layout (hargs : ∀ a ∈ args, a.Valid) (spaced : Bool) :
    ∀ g ∈ layout .escaped spaced args, g.Sound ∧ g ≠ .quote := by
  have hescaped : escapedQuote.Sound ∧ escapedQuote ≠ .quote := by decide
  induction args generalizing spaced with
  | nil => exact fun g hg => by cases hg
  | cons a args ih =>
    obtain ⟨ha, hmore⟩ := List.forall_mem_cons.mp hargs
    intro g hg
    rw [layout, List.mem_append, List.mem_append] at hg
    rcases hg with hg | hg | hg
    · cases spaced with
      | true => rw [List.mem_singleton.mp hg]; decide
      | false => cases hg
    · cases a with
      | bare gs => exact ⟨(ha.2 g hg).1.1, (ha.2 g hg).1.2.1⟩
      | valued name value =>
        simp only [EscapedArgument.glyphs, Quoting.escaped, List.mem_append, List.mem_cons,
          List.mem_map, List.not_mem_nil, or_false] at hg
        rcases hg with ⟨c, hc, rfl⟩ | rfl | hg | rfl
        · exact ⟨(ha.1 c hc).1, by intro h; cases h⟩
        · exact hescaped
        · exact ⟨(ha.2.2 g hg).1, (ha.2.2 g hg).2.1⟩
        · exact hescaped
    · exact ih hmore true g hg

/-- The body lists the arguments, with their quotes as they are settled. -/
theorem body_layout (hargs : ∀ a ∈ args, a.Valid) (ht : IsEnd t) (spaced : Bool) :
    body (spell (layout .escaped spaced args) ++ t) = written .settled spaced args := by
  have hlone := lone_layout hargs spaced
  rw [body_spell ht (sound_layout hargs spaced), hideTriples_eq_self hlone.not_run,
    unescaped_eq_loosen hlone, loosen_layout hargs fun _ => rfl]
  cases args with
  | nil => rfl
  | cons a args =>
    obtain ⟨ha, hmore⟩ := List.forall_mem_cons.mp hargs
    rw [strip_layout ha hmore, restoreTriples_layout ha hmore]

/-- **The quotes of a value are alike exactly if the opening one loses its escape**, as the
    closing one always does. -/
theorem body_pairs (hargs : ∀ a ∈ args, a.Valid) (ht : IsEnd t) (spaced : Bool) :
    ∃ quoting : Quoting,
      body (spell (layout .escaped spaced args) ++ t) = written quoting spaced args ∧
      ∀ spaced name value,
        (quoting spaced (.valued name value)).1.IsQuote ∧
        (quoting spaced (.valued name value)).2 = .quote ∧
        ((quoting spaced (.valued name value)).1 = (quoting spaced (.valued name value)).2 ↔
          opens spaced name value = true) := by
  refine ⟨.settled, body_layout hargs ht spaced, fun spaced name value => ?_⟩
  refine ⟨(isQuote_settled spaced _).1, rfl, ?_⟩
  show (if opens spaced name value = true then Glyph.quote else escapedQuote) = .quote ↔ _
  simp

/-- A definition with a space in its value. -/
def namedDefinition : EscapedArgument :=
  .valued "-DNAME=" [.plain (.char 'a'), .plain (.char ' '), .plain (.char 'b')]

/-- An include of a folder. -/
def namedInclude : EscapedArgument := .valued "-I" [.plain (.char 'x'), backslash]

/-- The definition, the include and a forced include. -/
def namedValues : List EscapedArgument :=
  [namedDefinition, namedInclude, .valued "/FI" [.plain (.char 'y')],
    .bare [.plain (.char '-'), .plain (.char 'c')]]

/-- The quotes of the definition are not alike, and those of the include are. -/
theorem body_pairs_namedValues :
    (∀ a ∈ namedValues, a.Valid) ∧
      body (spell (layout .escaped true namedValues) ++ [.char '"', .char ',']) =
        "-DNAME=\\\"a b\"\n-I\"x/\"\n/FI\\\"y\"\n-c" ∧
      ∃ quoting : Quoting,
        body (spell (layout .escaped true namedValues) ++ [.char '"', .char ',']) =
          written quoting true namedValues ∧
        (quoting true namedDefinition).1 ≠ (quoting true namedDefinition).2 ∧
        (quoting true namedInclude).1 = (quoting true namedInclude).2 := by
  have hvalid : ∀ a ∈ namedValues, a.Valid := by decide
  obtain ⟨quoting, hbody, hquotes⟩ := body_pairs hvalid (.inr rfl) true
  have halike := fun name value => (hquotes true name value).2.2
  refine ⟨hvalid, by decide +kernel, quoting, hbody, ?_, ?_⟩
  · intro hsame
    -- the name ends in neither flag, and no blank begins the value
    exact absurd ((halike _ _).mp hsame) (by decide)
  · exact (halike _ _).mpr (by decide)

end Arguments

end ClangDb

import ClangDb.Proofs.ResponseFile.Glyphs
import Mathlib.Data.List.TakeWhile

/-! # The steps on glyphs

    Each step replaces pieces of a text.  On a text that is written in glyphs it
    does something to the glyphs: no piece that is replaced begins within one
    glyph and ends within another.

    The argument is the same for each step.  At a glyph either the piece begins,
    and then the glyphs that follow are known from their text, or it begins at
    none of the glyph's code points and the glyph is passed over.

    Key theorems:
    - `protectTriples_spell`: runs of three escaped quotes are hidden,
    - `openDefinesAndIncludes_spell`, `collapsePairs_spell`, `unescapeBoundaries_spell`: quotes
      lose their escape.
-/

namespace ClangDb

namespace Arguments

open Glyph

variable {g : Glyph} {gs before : List Glyph} {c : CodePoint} {p s t : Text}

/-! ### Pieces that begin with an escaped quote -/

/-- A piece that begins with an escaped quote, and has another escape behind it, begins with no
    other glyph. -/
theorem replaceAll_glyph (ht : IsEnd t) (hgs : ∀ g' ∈ g :: gs, g'.Sound) (hapart : Apart (g :: gs))
    (hnot : ¬ (g = escapedQuote ∧ .char '\\' :: p <+: spell gs ++ t)) (new : Text) :
    Text.replaceAll (g.spell ++ (spell gs ++ t)) (.char '\\' :: .char '"' :: .char '\\' :: p) new =
      g.spell ++ Text.replaceAll (spell gs ++ t) (.char '\\' :: .char '"' :: .char '\\' :: p)
        new := by
  obtain ⟨hsound, hmore⟩ := List.forall_mem_cons.mp hgs
  cases g with
  | plain c =>
    refine Text.replaceAll_cons ?_ new
    intro h
    exact hsound.2 (List.cons_prefix_cons.mp h).1.symm
  | quote =>
    refine Text.replaceAll_cons ?_ new
    intro h
    exact absurd (List.cons_prefix_cons.mp h).1 (by decide)
  | escape c =>
    have hfirst : ¬ .char '\\' :: .char '"' :: .char '\\' :: p <+:
        .char '\\' :: c :: (spell gs ++ t) := by
      intro h
      obtain ⟨_, h₁⟩ := List.cons_prefix_cons.mp h
      obtain ⟨rfl, h₂⟩ := List.cons_prefix_cons.mp h₁
      exact hnot ⟨rfl, h₂⟩
    -- the escaped code point could be a backslash with a quote behind it
    have hsecond : ¬ .char '\\' :: .char '"' :: .char '\\' :: p <+: c :: (spell gs ++ t) := by
      intro h
      obtain ⟨rfl, h₁⟩ := List.cons_prefix_cons.mp h
      obtain ⟨r, rfl⟩ := quote_of_prefix ht hmore h₁
      exact (List.isChain_cons_cons.mp hapart).1 ⟨rfl, rfl⟩
    exact (Text.replaceAll_cons hfirst new).trans
      (congrArg (.char '\\' :: ·) (Text.replaceAll_cons hsecond new))

/-- The glyphs with each run of three escaped quotes hidden. -/
def hideTriples : List Glyph → List Glyph
  | g₁ :: g₂ :: g₃ :: r =>
    if g₁ = escapedQuote ∧ g₂ = escapedQuote ∧ g₃ = escapedQuote then
      placeholder.map .plain ++ hideTriples r
    else g₁ :: hideTriples (g₂ :: g₃ :: r)
  | gs => gs

/-- Holds of glyphs that begin with a run of three escaped quotes, and of those behind it. -/
def Triple (gs r : List Glyph) : Prop := gs = escapedQuote :: escapedQuote :: escapedQuote :: r

theorem Triple.length_lt (gs r : List Glyph) (h : Triple gs r) : r.length < gs.length := by
  subst h
  simp only [List.length_cons]
  omega

theorem hideTriples_triple (r : List Glyph) :
    hideTriples (escapedQuote :: escapedQuote :: escapedQuote :: r) =
      placeholder.map .plain ++ hideTriples r := by
  rw [hideTriples, if_pos ⟨rfl, rfl, rfl⟩]

theorem hideTriples_cons (h : ∀ r, ¬ Triple (g :: gs) r) :
    hideTriples (g :: gs) = g :: hideTriples gs := by
  match gs with
  | [] => rfl
  | [_] => rfl
  | g₂ :: g₃ :: r =>
    rw [hideTriples, if_neg]
    rintro ⟨rfl, rfl, rfl⟩
    exact h r rfl

theorem triple_of_prefix (ht : IsEnd t) (hgs : ∀ g' ∈ gs, g'.Sound) (hg : g = escapedQuote)
    (h : [.char '\\', .char '"', .char '\\', .char '"'] <+: spell gs ++ t) :
    ∃ r, Triple (g :: gs) r := by
  obtain ⟨r₁, rfl, h₁⟩ := escape_of_prefix ht hgs h
  obtain ⟨r₂, rfl, _⟩ := escape_of_prefix ht (List.forall_mem_cons.mp hgs).2 h₁
  exact ⟨r₂, by rw [hg]; rfl⟩

/-- **Runs of three escaped quotes are hidden**, the leftmost first. -/
theorem protectTriples_spell (ht : IsEnd t) (hgs : ∀ g ∈ gs, g.Sound) (hquote : .quote ∉ gs) :
    protectTriples (spell gs ++ t) = spell (hideTriples gs) ++ t := by
  induction gs using jump_induction Triple.length_lt with
  | nil => rcases ht with rfl | rfl <;> rfl
  | jump gs r h ih =>
    subst h
    rw [List.forall_mem_cons, List.forall_mem_cons, List.forall_mem_cons] at hgs
    simp only [List.mem_cons, not_or] at hquote
    rw [hideTriples_triple, spell_append, spell_map_plain, List.append_assoc,
      ← ih hgs.2.2.2 hquote.2.2.2]
    exact Text.replaceAll_append_self (by decide) placeholder (spell r ++ t)
  | cons g r h ih =>
    have hmore := (List.forall_mem_cons.mp hgs).2
    have hpass : protectTriples (g.spell ++ (spell r ++ t)) =
        g.spell ++ protectTriples (spell r ++ t) := by
      refine replaceAll_glyph ht hgs (apart_of_no_quote hquote) ?_ placeholder
      rintro ⟨hg, hp⟩
      obtain ⟨r', hr'⟩ := triple_of_prefix ht hmore hg hp
      exact h r' hr'
    rw [hideTriples_cons h, spell_cons, spell_cons, List.append_assoc, hpass,
      ih hmore fun hr => hquote (List.mem_cons_of_mem _ hr), List.append_assoc]

/-- Holds of glyphs that begin with two escaped quotes, and of those behind them. -/
def Pair (gs r : List Glyph) : Prop := gs = escapedQuote :: escapedQuote :: r

theorem Pair.length_lt (gs r : List Glyph) (h : Pair gs r) : r.length < gs.length := by
  subst h
  simp only [List.length_cons]
  omega

theorem secondOfPair_cons_of_ne (hg : g ≠ escapedQuote) (before after : List Glyph) :
    secondOfPair (g :: before) after = false := by
  simp [secondOfPair, hg]

theorem secondOfPair_cons_self (before after : List Glyph) :
    secondOfPair (escapedQuote :: before) after = !secondOfPair before after := by
  simp only [secondOfPair, List.takeWhile_cons, decide_true, if_true, List.length_cons]
  generalize (before.takeWhile (· = escapedQuote)).length = n
  rcases Nat.mod_two_eq_zero_or_one n with h | h
  · simp [h, Nat.add_mod]
  · simp [h, Nat.add_mod]

theorem collapsePairs_spell_from (ht : IsEnd t) (hgs : ∀ g ∈ gs, g.Sound) (hapart : Apart gs)
    (hbefore : secondOfPair before [] = true → gs.head? ≠ some escapedQuote) :
    collapsePairs (spell gs ++ t) = spell (loosen secondOfPair before gs) ++ t := by
  induction gs using jump_induction Pair.length_lt generalizing before with
  | nil => rcases ht with rfl | rfl <;> rfl
  | jump gs r h ih =>
    subst h
    have heven : secondOfPair before [] = false := by
      rw [Bool.eq_false_iff]
      intro hodd
      exact hbefore hodd rfl
    have hloosen : loosen secondOfPair before (escapedQuote :: escapedQuote :: r) =
        escapedQuote :: .quote ::
          loosen secondOfPair (escapedQuote :: escapedQuote :: before) r := by
      have hfirst : secondOfPair before (escapedQuote :: r) = false := heven
      have hsecond : secondOfPair (escapedQuote :: before) r = true := by
        rw [secondOfPair_cons_self]
        exact congrArg (!·) heven
      rw [loosen, loosen, hfirst, hsecond]
      rfl
    have hnext : secondOfPair (escapedQuote :: escapedQuote :: before) [] = true →
        r.head? ≠ some escapedQuote := by
      rw [secondOfPair_cons_self, secondOfPair_cons_self, Bool.not_not, heven]
      intro h
      cases h
    rw [List.forall_mem_cons, List.forall_mem_cons] at hgs
    rw [hloosen, spell_cons_append escapedQuote (.quote :: _), spell_cons_append .quote,
      ← ih hgs.2.2 hapart.tail.tail hnext]
    exact Text.replaceAll_append_self (by decide) "\\\"\"" (spell r ++ t)
  | cons g r h ih =>
    have hmore := (List.forall_mem_cons.mp hgs).2
    have hpass : collapsePairs (g.spell ++ (spell r ++ t)) =
        g.spell ++ collapsePairs (spell r ++ t) := by
      refine replaceAll_glyph ht hgs hapart ?_ "\\\"\""
      rintro ⟨rfl, hp⟩
      obtain ⟨r, rfl, _⟩ := escape_of_prefix ht hmore hp
      exact h r rfl
    have hkept : ¬ (g = escapedQuote ∧ secondOfPair before r = true) := by
      rintro ⟨rfl, hodd⟩
      exact hbefore hodd rfl
    have hnext : secondOfPair (g :: before) [] = true → r.head? ≠ some escapedQuote := by
      intro hodd hhead
      -- the pair that the glyph would be the first of is a jump
      by_cases hg : g = escapedQuote
      · obtain ⟨r', rfl⟩ := List.head?_eq_some_iff.mp hhead
        exact h r' (by rw [hg]; rfl)
      · rw [secondOfPair_cons_of_ne hg] at hodd
        cases hodd
    rw [loosen, if_neg hkept, spell_cons, spell_cons, List.append_assoc, hpass,
      ih hmore hapart.tail hnext, List.append_assoc]

/-- **Of two escaped quotes in a row the second loses its escape.** -/
theorem collapsePairs_spell (ht : IsEnd t) (hgs : ∀ g ∈ gs, g.Sound) (hapart : Apart gs) :
    collapsePairs (spell gs ++ t) = spell (loosen secondOfPair [] gs) ++ t :=
  collapsePairs_spell_from ht hgs hapart (fun h => by cases h)

/-! ### Defines and includes -/

/-- Holds of glyphs that begin with a flag and an escaped quote, and of those behind it. -/
def Flag (letter : CodePoint) (gs r : List Glyph) : Prop :=
  ∃ g, gs = g :: .plain letter :: escapedQuote :: r ∧ g.last = .char '-'

theorem Flag.length_lt (letter : CodePoint) (gs r : List Glyph) (h : Flag letter gs r) :
    r.length < gs.length := by
  obtain ⟨g, rfl, _⟩ := h
  simp only [List.length_cons]
  omega

/-- Holds of glyphs that do not go on with the flag that those before them begin. -/
structure OffFlag (letter : CodePoint) (before gs : List Glyph) : Prop where
  hyphen : ∀ r, before.head?.map Glyph.last = some (.char '-') →
    gs ≠ .plain letter :: escapedQuote :: r
  quote : afterFlag letter before [] = true → gs.head? ≠ some escapedQuote

theorem afterFlag_eq_true_iff {letter : CodePoint} {after : List Glyph} :
    afterFlag letter before after = true ↔
      ∃ g b, before = .plain letter :: g :: b ∧ g.last = .char '-' := by
  constructor
  · intro h
    match before with
    | .plain c :: g :: b =>
      simp only [afterFlag, Bool.and_eq_true, decide_eq_true_eq] at h
      exact ⟨g, b, by rw [h.1], h.2⟩
  · rintro ⟨g, b, rfl, hg⟩
    simp [afterFlag, hg]

section Flag

variable {letter : CodePoint} (hquote : letter ≠ .char '"') (hbackslash : letter ≠ .char '\\')

/-- The flag with its escaped quote. -/
def flagged (letter : CodePoint) : Text := [.char '-', letter, .char '\\', .char '"']

theorem not_flagged_of_backslash (s : Text) : ¬ flagged letter <+: .char '\\' :: s := by
  intro hp
  exact absurd (List.cons_prefix_cons.mp hp).1 (by decide)

include hquote hbackslash in
theorem flag_of_prefix (ht : IsEnd t) (hgs : ∀ g ∈ gs, g.Sound) (hlast : g.last = .char '-')
    (h : letter :: .char '\\' :: [.char '"'] <+: spell gs ++ t) :
    ∃ r, Flag letter (g :: gs) r := by
  obtain ⟨r₁, rfl, h₁⟩ := plain_of_prefix ht hquote hbackslash h
  obtain ⟨r₂, rfl, _⟩ := escape_of_prefix ht (List.forall_mem_cons.mp hgs).2 h₁
  exact ⟨r₂, g, rfl, hlast⟩

include hquote hbackslash in
theorem replaceAll_flagged_glyph (ht : IsEnd t) (hgs : ∀ g' ∈ gs, g'.Sound)
    (h : ∀ r, ¬ Flag letter (g :: gs) r) (new : Text) :
    Text.replaceAll (g.spell ++ (spell gs ++ t)) (flagged letter) new =
      g.spell ++ Text.replaceAll (spell gs ++ t) (flagged letter) new := by
  -- a flag can begin only with the last code point of the glyph
  have hlast : ¬ flagged letter <+: g.last :: (spell gs ++ t) := by
    intro hp
    obtain ⟨hhyphen, hp⟩ := List.cons_prefix_cons.mp hp
    obtain ⟨r, hr⟩ := flag_of_prefix hquote hbackslash ht hgs hhyphen.symm hp
    exact h r hr
  cases g with
  | plain c => exact Text.replaceAll_cons hlast new
  | quote => exact Text.replaceAll_cons hlast new
  | escape c =>
    exact (Text.replaceAll_cons (not_flagged_of_backslash _) new).trans
      (congrArg (.char '\\' :: ·) (Text.replaceAll_cons hlast new))

theorem replaceAll_flagged (letter : CodePoint) (hlast : g.last = .char '-') (s : Text) :
    Text.replaceAll (g.spell ++ letter :: .char '\\' :: .char '"' :: s) (flagged letter)
        [.char '-', letter, .char '"'] =
      g.spell ++ letter :: .char '"' ::
        Text.replaceAll s (flagged letter) [.char '-', letter, .char '"'] := by
  have hself := Text.replaceAll_append_self (List.cons_ne_nil _ _ : flagged letter ≠ [])
    [.char '-', letter, .char '"'] s
  cases g with
  | plain c =>
    obtain rfl : c = .char '-' := hlast
    exact hself
  | quote => exact absurd hlast (by decide)
  | escape c =>
    obtain rfl : c = .char '-' := hlast
    exact (Text.replaceAll_cons (not_flagged_of_backslash _) _).trans
      (congrArg (.char '\\' :: ·) hself)

include hquote hbackslash in
theorem replaceAll_flagged_spell (ht : IsEnd t) (hgs : ∀ g ∈ gs, g.Sound)
    (hoff : OffFlag letter before gs) :
    Text.replaceAll (spell gs ++ t) (flagged letter) [.char '-', letter, .char '"'] =
      spell (loosen (afterFlag letter) before gs) ++ t := by
  induction gs using jump_induction (Flag.length_lt letter) generalizing before with
  | nil =>
    have hnil : ∀ s : Text, .char '-' ∉ s →
        Text.replaceAll s (flagged letter) [.char '-', letter, .char '"'] = s := by
      intro s hs
      induction s with
      | nil => rfl
      | cons c s ih =>
        rw [List.mem_cons, not_or] at hs
        rw [Text.replaceAll_cons, ih hs.2]
        intro hp
        exact hs.1 (List.cons_prefix_cons.mp hp).1
    apply hnil
    rcases ht with rfl | rfl <;> decide
  | jump gs r h ih =>
    obtain ⟨g, rfl, hlast⟩ := h
    have hg : g ≠ escapedQuote := by
      rintro rfl
      exact absurd hlast (by decide)
    have hsheds : afterFlag letter (.plain letter :: g :: before) r = true :=
      afterFlag_eq_true_iff.mpr ⟨g, before, rfl, hlast⟩
    have hloosen : loosen (afterFlag letter) before (g :: .plain letter :: escapedQuote :: r) =
        g :: .plain letter :: .quote ::
          loosen (afterFlag letter) (escapedQuote :: .plain letter :: g :: before) r := by
      rw [loosen, loosen, loosen, hsheds, if_neg (fun h => hg h.1)]
      rfl
    have hnext : OffFlag letter (escapedQuote :: .plain letter :: g :: before) r := by
      constructor
      · intro r' hhead
        have hlast : CodePoint.char '"' = .char '-' := Option.some.inj hhead
        exact absurd hlast (by decide)
      · intro hafter
        cases hafter
    rw [List.forall_mem_cons, List.forall_mem_cons, List.forall_mem_cons] at hgs
    rw [hloosen, spell_cons_append g (_ :: escapedQuote :: _),
      spell_cons_append g (_ :: .quote :: _), spell_cons_append _ (.quote :: _),
      spell_cons_append .quote, ← ih hgs.2.2.2 hnext]
    exact replaceAll_flagged letter hlast (spell r ++ t)
  | cons g r h ih =>
    have hmore := (List.forall_mem_cons.mp hgs).2
    have hkept : ¬ (g = escapedQuote ∧ afterFlag letter before r = true) := by
      rintro ⟨rfl, hafter⟩
      exact hoff.quote (afterFlag_eq_true_iff.mpr (afterFlag_eq_true_iff.mp hafter)) rfl
    have hnext : OffFlag letter (g :: before) r := by
      constructor
      · rintro r' hlast rfl
        exact h r' ⟨g, rfl, Option.some.inj hlast⟩
      · intro hafter hhead
        obtain ⟨g', b, hbefore, hlast⟩ := afterFlag_eq_true_iff.mp hafter
        obtain ⟨rfl, rfl⟩ := List.cons.inj hbefore
        obtain ⟨r', rfl⟩ := List.head?_eq_some_iff.mp hhead
        exact hoff.hyphen r' (congrArg some hlast) rfl
    rw [loosen, if_neg hkept, spell_cons, spell_cons, List.append_assoc,
      replaceAll_flagged_glyph hquote hbackslash ht hmore h, ih hmore hnext, List.append_assoc]

end Flag

/-- **The opening quote of a define or an include loses its escape.** -/
theorem openDefinesAndIncludes_spell (ht : IsEnd t) (hgs : ∀ g ∈ gs, g.Sound) :
    openDefinesAndIncludes (spell gs ++ t) =
      spell (loosen (afterFlag (.char 'I')) [] (loosen (afterFlag (.char 'D')) [] gs)) ++ t := by
  have hoff : ∀ letter gs, OffFlag letter [] gs := by
    intro letter gs
    constructor
    · intro r h
      cases h
    · intro h
      cases h
  have hopened : ∀ g ∈ loosen (afterFlag (.char 'D')) [] gs, g.Sound :=
    (loosens_loosen _ _ _).sound hgs
  have hdefines := replaceAll_flagged_spell (by decide) (by decide) ht hgs (hoff (.char 'D') _)
  have hincludes := replaceAll_flagged_spell (by decide) (by decide) ht hopened
    (hoff (.char 'I') _)
  rw [← hdefines] at hincludes
  exact hincludes

/-! ### Boundaries of arguments -/

theorem not_mem_of_isCommaAndBlanks (h : isCommaAndBlanks s = true) : .char '"' ∉ s := by
  have hblanks : ∀ r : Text, (∀ c ∈ r, c.isBlank = true) → .char '"' ∉ r := by
    intro r hr hmem
    exact absurd (hr _ hmem) (by decide)
  have htake : .char '"' ∉ s.takeWhile CodePoint.isBlank :=
    hblanks _ fun c hc => List.mem_takeWhile_imp hc
  have hdrop : .char '"' ∉ s.dropWhile CodePoint.isBlank := by
    unfold isCommaAndBlanks at h
    split at h
    · next hnil => simp [hnil]
    · next c r hcons =>
      rw [Bool.and_eq_true, decide_eq_true_eq, List.all_eq_true] at h
      rw [hcons, List.mem_cons, not_or]
      refine ⟨?_, hblanks r h.2⟩
      rw [h.1]
      decide
  rw [← List.takeWhile_append_dropWhile (p := CodePoint.isBlank) (l := s), List.mem_append, not_or]
  exact ⟨htake, hdrop⟩

/-- What closes an argument is white space, or the end of the line. -/
theorem closesArgument_spell (ht : IsEnd t) (hgs : ∀ g ∈ gs, g.Sound) (before : List Glyph) :
    closesArgument (spell gs ++ t) = beforeBlank before gs := by
  cases gs with
  | nil => rcases ht with rfl | rfl <;> rfl
  | cons g r =>
    cases g with
    | plain c =>
      have hsound : (Glyph.plain c).Sound := hgs _ List.mem_cons_self
      show (c.isBlank || (decide (c = .char '"') && _)) = c.isBlank
      rw [decide_eq_false hsound.1, Bool.false_and, Bool.or_false]
    | escape c => rfl
    | quote =>
      -- the quote at the end of the line is still to come
      show (false || (true && isCommaAndBlanks (spell r ++ t))) = false
      rw [Bool.false_or, Bool.true_and, Bool.eq_false_iff]
      intro h
      have hmem : .char '"' ∈ t := by rcases ht with rfl | rfl <;> decide
      exact not_mem_of_isCommaAndBlanks h (List.mem_append_right _ hmem)

theorem unescapeClosing_cons (hc : c ≠ .char '\\') (s : Text) :
    unescapeClosing (c :: s) = c :: unescapeClosing s := by
  rw [unescapeClosing]
  intro _ h _
  exact hc h

theorem unescapeClosing_backslash (hs : s.head? ≠ some (.char '"')) :
    unescapeClosing (.char '\\' :: s) = .char '\\' :: unescapeClosing s := by
  rw [unescapeClosing]
  rintro _ _ rfl
  exact hs rfl

theorem unescapeClosing_quote (s : Text) :
    unescapeClosing (.char '\\' :: .char '"' :: s) =
      if closesArgument s then .char '"' :: unescapeClosing s
      else .char '\\' :: .char '"' :: unescapeClosing s := by
  rw [unescapeClosing, unescapeClosing_cons (by decide)]

/-- **The escape of a quote goes if the quote closes an argument.** -/
theorem unescapeClosing_spell (ht : IsEnd t) (hgs : ∀ g ∈ gs, g.Sound) (hapart : Apart gs)
    (before : List Glyph) :
    unescapeClosing (spell gs ++ t) = spell (loosen beforeBlank before gs) ++ t := by
  induction gs generalizing before with
  | nil => rcases ht with rfl | rfl <;> rfl
  | cons g r ih =>
    obtain ⟨hsound, hmore⟩ := List.forall_mem_cons.mp hgs
    have hrest := ih hmore hapart.tail (g :: before)
    rw [loosen, spell_cons_append, spell_cons_append, ← hrest]
    by_cases hg : g = escapedQuote
    · subst hg
      show unescapeClosing (.char '\\' :: .char '"' :: (spell r ++ t)) = _
      rw [unescapeClosing_quote, closesArgument_spell ht hmore before]
      cases beforeBlank before r with
      | true => rfl
      | false => rfl
    · rw [if_neg fun h => hg h.1]
      cases g with
      | plain c => exact unescapeClosing_cons hsound.2 _
      | quote => exact unescapeClosing_cons (by decide) _
      | escape c =>
        have hquote : c ≠ .char '"' := by
          rintro rfl
          exact hg rfl
        have hfirst : unescapeClosing (.char '\\' :: c :: (spell r ++ t)) =
            .char '\\' :: unescapeClosing (c :: (spell r ++ t)) :=
          unescapeClosing_backslash fun h => hquote (Option.some.inj h)
        refine hfirst.trans (congrArg (fun s : Text => .char '\\' :: s) ?_)
        by_cases hc : c = .char '\\'
        · subst hc
          cases r with
          | nil => rcases ht with rfl | rfl <;> rfl
          | cons g' r =>
            -- behind the backslash there is no bare quote
            refine unescapeClosing_backslash ?_
            cases g' with
            | plain d =>
              have hd : (Glyph.plain d).Sound := hmore _ List.mem_cons_self
              exact fun h => hd.1 (Option.some.inj h)
            | escape d => exact fun h => absurd (Option.some.inj h) (by decide)
            | quote => exact absurd ⟨rfl, rfl⟩ (List.isChain_cons_cons.mp hapart).1
        · exact unescapeClosing_cons hc _

/-- **The escape of a quote goes if white space precedes the quote.** -/
theorem unescapeOpening_spell (ht : IsEnd t) (hgs : ∀ g ∈ gs, g.Sound) (before : List Glyph) :
    unescapeOpening (afterBlank before gs) (spell gs ++ t) =
      spell (loosen afterBlank before gs) ++ t := by
  induction gs generalizing before with
  | nil =>
    show unescapeOpening _ t = t
    rcases ht with rfl | rfl <;> cases afterBlank before [] <;> rfl
  | cons g r ih =>
    obtain ⟨hsound, hmore⟩ := List.forall_mem_cons.mp hgs
    have hrest : unescapeOpening g.isBlank (spell r ++ t) = _ := ih hmore (g :: before)
    have hsame : afterBlank before (g :: r) = afterBlank before r := rfl
    rw [loosen, spell_cons_append, spell_cons_append, ← hrest, hsame]
    by_cases hg : g = escapedQuote
    · subst hg
      cases afterBlank before r with
      | true => rfl
      | false => rfl
    · rw [if_neg fun h => hg h.1]
      cases g with
      | plain c =>
        show unescapeOpening _ (c :: (spell r ++ t)) = c :: unescapeOpening c.isBlank (spell r ++ t)
        rw [unescapeOpening, if_neg fun h => hsound.2 h.2.1]
      | quote =>
        show unescapeOpening _ (.char '"' :: (spell r ++ t)) = .char '"' :: unescapeOpening _ _
        rw [unescapeOpening, if_neg fun h => absurd h.2.1 (by decide)]
        rfl
      | escape c =>
        have hquote : c ≠ .char '"' := by
          rintro rfl
          exact hg rfl
        have hblank : c.isBlank = false := hsound
        show unescapeOpening _ (.char '\\' :: c :: (spell r ++ t)) =
          .char '\\' :: c :: unescapeOpening false (spell r ++ t)
        rw [unescapeOpening, if_neg fun h => hquote (Option.some.inj h.2.2), unescapeOpening,
          if_neg fun h => absurd h.1 (by decide), hblank]

/-- **Quotes at the boundaries of arguments lose their escape.** -/
theorem unescapeBoundaries_spell (ht : IsEnd t) (hgs : ∀ g ∈ gs, g.Sound) (hapart : Apart gs) :
    unescapeBoundaries (spell gs ++ t) =
      spell (loosen afterBlank [] (loosen beforeBlank [] gs)) ++ t := by
  have hclosed : ∀ g ∈ loosen beforeBlank [] gs, g.Sound := (loosens_loosen _ _ _).sound hgs
  unfold unescapeBoundaries
  rw [unescapeClosing_spell ht hgs hapart []]
  exact unescapeOpening_spell ht hclosed []

end Arguments

end ClangDb

import ClangDb.Proofs.Json.Alike
import Mathlib.Algebra.GroupWithZero.Nat

/-! # Texts that differ in commands

    A rewrite replaces the text of a `"command":` member together with what
    follows it on its line, the drop, by another text and a comma.  Outside of
    commands a text and its recast form are equal, so that both can be taken apart
    at the same places, and what the drops held is missing in the tally.

    Key theorems:
    - `Recast.append`: rewrites are made in one part of a text after another,
    - `Recast.quoted_inv`: a string stays, or it is the key of a rewrite,
    - `Recast.tallyOf_eq`: what the drops have taken away.
-/

namespace ClangDb

namespace Database

open Json

/-- The key of an entry's command. -/
def commandName : Text := "command"

theorem writes_commandName : Writes commandName commandName := by
  have hread : readString 0 0 (commandName ++ [.char '"']) = .ok (commandName, []) := rfl
  obtain ⟨body, hw, heq⟩ := writes_of_readString hread
  rwa [List.append_cancel_right heq] at hw ⊢

theorem eq_of_writes_commandName {k : Text} (h : Writes commandName k) : k = commandName := by
  have := (h.2 0 []).symm.trans (writes_commandName.2 0 [])
  exact (Prod.mk.inj (Except.ok.inj this)).1

/-! ### Blanks and commas -/

/-- Holds of a text of blanks. -/
def IsBlank (s : Text) : Prop := ∀ c ∈ s, isSpace c = true

/-- Holds of a comma with blanks around it. -/
def IsComma (s : Text) : Prop := s.filter (fun c => !isSpace c) = [.char ',']

instance : DecidablePred IsComma := fun _ => inferInstanceAs (Decidable (_ = _))

variable {a b s s' : Text}

theorem isBlank_nil : IsBlank [] := List.forall_mem_nil _

theorem isBlank_cons {c : CodePoint} : IsBlank (c :: s) ↔ isSpace c = true ∧ IsBlank s :=
  List.forall_mem_cons

/-- A text is blank or has a first code point that is not. -/
theorem isBlank_or (s : Text) :
    IsBlank s ∨ ∃ gap c rest, s = gap ++ c :: rest ∧ IsBlank gap ∧ isSpace c = false := by
  induction s with
  | nil => exact .inl isBlank_nil
  | cons c s ih =>
    cases hc : isSpace c with
    | false => exact .inr ⟨[], c, s, rfl, isBlank_nil, hc⟩
    | true =>
      rcases ih with hblank | ⟨gap, d, rest, rfl, hgap, hd⟩
      · exact .inl (isBlank_cons.mpr ⟨hc, hblank⟩)
      · exact .inr ⟨c :: gap, d, rest, rfl, isBlank_cons.mpr ⟨hc, hgap⟩, hd⟩

theorem skip_append_of_blank (h : IsBlank a) (b : Text) : skip (a ++ b) = skip b := by
  induction a with
  | nil => rfl
  | cons c a ih =>
    obtain ⟨hc, ha⟩ := isBlank_cons.mp h
    rw [List.cons_append, skip_cons_of_space hc, ih ha]

theorem filter_of_blank (h : IsBlank s) : s.filter (fun c => !isSpace c) = [] := by
  rw [List.filter_eq_nil_iff]
  intro c hc
  simp [h c hc]

theorem isBlank_of_filter (h : s.filter (fun c => !isSpace c) = []) : IsBlank s := by
  intro c hc
  simpa using List.filter_eq_nil_iff.mp h c hc

theorem isComma_iff :
    IsComma s ↔ ∃ gap gap', s = gap ++ .char ',' :: gap' ∧ IsBlank gap ∧ IsBlank gap' := by
  constructor
  · intro h
    rcases isBlank_or s with hblank | ⟨gap, c, rest, rfl, hgap, hc⟩
    · rw [IsComma, filter_of_blank hblank] at h
      cases h
    · rw [IsComma, List.filter_append, filter_of_blank hgap, List.nil_append,
        List.filter_cons_of_pos (by simp [hc])] at h
      obtain ⟨rfl, hrest⟩ := List.cons.inj h
      exact ⟨gap, rest, rfl, hgap, isBlank_of_filter hrest⟩
  · rintro ⟨gap, gap', rfl, hgap, hgap'⟩
    rw [IsComma, List.filter_append, filter_of_blank hgap, List.nil_append,
      List.filter_cons_of_pos (by decide), filter_of_blank hgap']

theorem not_isComma_of_blank (h : IsBlank s) : ¬ IsComma s := by
  rw [IsComma, filter_of_blank h]
  intro h
  cases h

theorem light_of_blank (h : IsBlank s) : Light s := by
  constructor
  · intro hc
    exact absurd (h _ hc) (by decide)
  · intro hc
    exact absurd (h _ hc) (by decide)

theorem light_append : Light (a ++ b) ↔ Light a ∧ Light b := by
  simp only [Light, List.mem_append, not_or]
  constructor
  · rintro ⟨⟨h₁, h₂⟩, h₃, h₄⟩
    exact ⟨⟨h₁, h₃⟩, h₂, h₄⟩
  · rintro ⟨⟨h₁, h₃⟩, h₂, h₄⟩
    exact ⟨⟨h₁, h₂⟩, h₃, h₄⟩

/-- A comma is light. -/
theorem IsComma.light (h : IsComma s) : Light s := by
  obtain ⟨gap, gap', rfl, hgap, hgap'⟩ := isComma_iff.mp h
  exact light_append.mpr ⟨light_of_blank hgap,
    light_cons.mpr ⟨⟨by decide, by decide⟩, light_of_blank hgap'⟩⟩

/-! ### Rewrites -/

/-- The text of a command with what follows it on its line, and the text that replaces
    both. -/
structure Rewrite where
  pad : Text
  body : Text
  drop : Text
  body' : Text
  isBlank : IsBlank pad
  spelled : Spelled body
  pieces : Pieces drop
  isBody : IsBody body'

/-- Holds of a rewrite that drops a comma and whose new text can be read. -/
def Rewrite.Fits (w : Rewrite) : Prop := IsComma w.drop ∧ Spelled w.body'

/-- The member before the rewrite, and what follows it. -/
def Rewrite.before (w : Rewrite) (s : Text) : Text :=
  commandKey ++ (w.pad ++ quoted w.body (w.drop ++ s))

/-- The member after the rewrite, and what follows it. -/
def Rewrite.after (w : Rewrite) (s : Text) : Text :=
  commandKey ++ .char ' ' :: quoted w.body' (.char ',' :: s)

theorem Rewrite.before_eq (w : Rewrite) (s : Text) :
    w.before s = quoted commandName (.char ':' :: (w.pad ++ quoted w.body (w.drop ++ s))) := rfl

theorem Rewrite.after_eq (w : Rewrite) (s : Text) :
    w.after s = quoted commandName
      (.char ':' :: .char ' ' :: quoted w.body' (.char ',' :: s)) := rfl

/-- Holds of a text and of what rewrites make of it. -/
inductive Recast : List Rewrite → Text → Text → Prop where
  | nil : Recast [] [] []
  | plain {ws : List Rewrite} {c : CodePoint} {s s' : Text} : c ≠ .char '"' →
      Recast ws s s' → Recast ws (c :: s) (c :: s')
  | string {ws : List Rewrite} {body s s' : Text} : Spelled body →
      Recast ws s s' → Recast ws (quoted body s) (quoted body s')
  | command {ws : List Rewrite} (w : Rewrite) {s s' : Text} :
      Recast ws s s' → Recast (w :: ws) (w.before s) (w.after s')

variable {ws ws' : List Rewrite}

/-- Pieces that stay as they are. -/
theorem Recast.of_pieces (h : Pieces s) : Recast [] s s := by
  induction h with
  | nil => exact .nil
  | plain hc _ ih => exact .plain hc ih
  | string hb _ _ ih => exact .string hb ih

theorem Recast.append (h : Recast ws a b) (h' : Recast ws' s s') :
    Recast (ws ++ ws') (a ++ s) (b ++ s') := by
  induction h with
  | nil => exact h'
  | plain hc _ ih => exact .plain hc ih
  | @string _ body a b hb _ ih =>
    have := Recast.string hb ih
    simpa [quoted] using this
  | @command _ w a b _ ih =>
    have := Recast.command w ih
    simpa [Rewrite.before, Rewrite.after, quoted] using this

theorem Recast.nil_inv (h : Recast ws [] s') : ws = [] ∧ s' = [] := by
  cases h
  exact ⟨rfl, rfl⟩

theorem Recast.cons_inv {c : CodePoint} (h : Recast ws (c :: s) s') (hc : c ≠ .char '"') :
    ∃ t, s' = c :: t ∧ Recast ws s t := by
  cases h with
  | plain _ h => exact ⟨_, rfl, h⟩
  | string => exact absurd rfl hc
  | command => exact absurd rfl hc

/-- A string stays as it is, or it is the key of a command that is rewritten. -/
theorem Recast.quoted_inv {body : Text} (hb : Spelled body) (h : Recast ws (quoted body s) s') :
    (∃ t, s' = quoted body t ∧ Recast ws s t) ∨
      ∃ w ws' t t', ws = w :: ws' ∧ body = commandName ∧
        s = .char ':' :: (w.pad ++ quoted w.body (w.drop ++ t)) ∧ s' = w.after t' ∧
        Recast ws' t t' := by
  generalize hs : quoted body s = x at h
  cases h with
  | nil => cases hs
  | plain hc _ => exact absurd (List.cons.inj hs).1.symm hc
  | string hb' h =>
    obtain ⟨rfl, rfl⟩ := hb.unique hb' (List.cons.inj hs).2
    exact .inl ⟨_, rfl, h⟩
  | command w h =>
    rw [w.before_eq] at hs
    -- the string is the key of the rewrite
    obtain ⟨rfl, rfl⟩ := hb.unique writes_commandName.1 (List.cons.inj hs).2
    exact .inr ⟨w, _, _, _, rfl, rfl, rfl, rfl, h⟩

/-- Both texts begin alike. -/
theorem Recast.head?_eq (h : Recast ws s s') : s'.head? = s.head? := by
  cases h <;> rfl

theorem Recast.skip (h : Recast ws s s') : Recast ws (Json.skip s) (Json.skip s') := by
  induction h with
  | nil => exact .nil
  | @plain _ c s s' hc h ih =>
    cases hspace : isSpace c with
    | true => rwa [skip_cons_of_space hspace, skip_cons_of_space hspace]
    | false =>
      rw [skip_cons_of_not_space hspace, skip_cons_of_not_space hspace]
      exact .plain hc h
  | string hb h => exact .string hb h
  | command w h => exact .command w h

/-- What follows blanks and a code point that is no quote. -/
theorem Recast.skip_inv {c : CodePoint} {r : Text} (h : Recast ws s s')
    (hs : Json.skip s = c :: r) (hc : c ≠ .char '"') :
    ∃ r', Json.skip s' = c :: r' ∧ Recast ws r r' := by
  have hskip := h.skip
  rw [hs] at hskip
  exact hskip.cons_inv hc

/-- Up to the first quote both texts are equal. -/
theorem Recast.split (h : Recast ws s s') :
    ∃ q y y', s = q ++ y ∧ s' = q ++ y' ∧ Closed y ∧ Closed y' ∧ Recast ws y y' ∧
      ∀ c ∈ q, c ≠ .char '"' := by
  have hquote : ∀ x : Text, Closed (.char '"' :: x) := fun _ _ hc => (Option.some.inj hc).symm
  have hnil : Closed [] := by
    intro c hc
    cases hc
  induction h with
  | nil => exact ⟨[], [], [], rfl, rfl, hnil, hnil, .nil, List.forall_mem_nil _⟩
  | plain hc _ ih =>
    obtain ⟨q, y, y', rfl, rfl, hy, hy', h, hq⟩ := ih
    refine ⟨_ :: q, y, y', rfl, rfl, hy, hy', h, ?_⟩
    exact List.forall_mem_cons.mpr ⟨hc, hq⟩
  | string hb h =>
    exact ⟨[], _, _, rfl, rfl, hquote _, hquote _, .string hb h, List.forall_mem_nil _⟩
  | command w h =>
    exact ⟨[], _, _, rfl, rfl, hquote _, hquote _, .command w h, List.forall_mem_nil _⟩

theorem Recast.append_left (ha : ∀ c ∈ a, c ≠ .char '"') (h : Recast ws s s') :
    Recast ws (a ++ s) (a ++ s') := by
  induction a with
  | nil => exact h
  | cons c a ih =>
    obtain ⟨hc, ha⟩ := List.forall_mem_cons.mp ha
    exact .plain hc (ih ha)

theorem tallyOf_append_of_blank (h : IsBlank a) (b : Text) : tallyOf (a ++ b) = tallyOf b := by
  rw [← tallyOf_skip, skip_append_of_blank h, tallyOf_skip]

/-- **The drops are missing in the tally.** -/
theorem Recast.tallyOf_eq (h : Recast ws s s') :
    tallyOf s = tallyOf s' + (ws.map fun w => tallyOf w.drop).sum := by
  have hname := writes_commandName.1.isBody
  induction h with
  | nil => rfl
  | @plain _ c s s' hc _ ih =>
    by_cases hbrace : c = .char '\x7d'
    · rw [hbrace, tallyOf_brace, tallyOf_brace, ih]
      omega
    · rw [tallyOf_cons hc hbrace, tallyOf_cons hc hbrace, ih]
  | string hb _ ih =>
    rw [tallyOf_quoted hb.isBody, tallyOf_quoted hb.isBody, ih]
    omega
  | @command ws w s s' _ ih =>
    -- the key and the text count on both sides, and the drop on one
    have hbefore : tallyOf (w.before s) = tallyOf w.drop + tallyOf s + 2 := by
      rw [w.before_eq, tallyOf_quoted hname,
        tallyOf_cons (by decide) (by decide), tallyOf_append_of_blank w.isBlank,
        tallyOf_quoted w.spelled.isBody, tally_append w.pieces]
    have hafter : tallyOf (w.after s') = tallyOf s' + 2 := by
      rw [w.after_eq, tallyOf_quoted hname,
        tallyOf_cons (by decide) (by decide), tallyOf_cons (by decide) (by decide),
        tallyOf_quoted w.isBody, tallyOf_cons (by decide) (by decide)]
    rw [hbefore, hafter, ih, List.map_cons, List.sum_cons]
    omega

end Database

end ClangDb

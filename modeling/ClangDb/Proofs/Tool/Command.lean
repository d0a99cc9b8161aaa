import ClangDb.Proofs.World
import ClangDb.Tool.Command

/-! # Where commands cannot be made or shown

    The arguments of a command are the values of a target, which may have any
    type.  Its name has to be a text, and its flags a text that can be split into
    words; whatever else it holds is taken over as it is.

    A command is shown in two steps.  Every argument is searched for blanks and
    quotes, so it has to be a text, a list or an object.  Then the arguments are
    joined, so each has to be a text by then: a list or an object is put in
    quotes, and made a text, if a blank is among what it holds and no quote is.

    Key theorems:
    - `targetArguments_eq_error_iff`, `extraArguments_eq_error_iff`: the arguments,
    - `buildCommand_eq_error_iff`, `databaseCommand_eq_error_iff`,
      `headersCommand_eq_error_iff`: the commands,
    - `shownCommand_eq_error_iff`: showing a command,
    - `not_unshown_of_texts`: a command of texts can be shown.
-/

namespace ClangDb

namespace Tool

variable {t : Target} {tool project : Text} {v : Json} {command : List Json} {e : Fault}

/-- Holds of a value that is a text. -/
def IsText (v : Json) : Prop := ∃ s, v = .string s

/-! ### Arguments -/

/-- Holds of a target whose name is no text, and of the fault. -/
inductive NameStumbles (t : Target) : Fault → Prop where
  | intro : ¬ IsText t.name → NameStumbles t (.wrongType (.join "+" t.name))

/-- Holds of a target whose flags cannot be split, and of the fault. -/
inductive FlagsStumble (t : Target) : Fault → Prop where
  | words {s : Text} {e : Shell.WordError} : t.extraFlags = .string s → Shell.words s = .error e →
      FlagsStumble t (.words e)
  /-- The flags count and are no text. -/
  | noText : t.extraFlags.isTrue = true → ¬ IsText t.extraFlags →
      FlagsStumble t (.noOperation ⟨t.extraFlags, "read"⟩)

theorem fullName_eq_error_iff : t.fullName = .error e ↔ NameStumbles t e := by
  unfold Target.fullName Target.joined
  cases hname : t.name with
  | string s =>
    refine iff_of_false (by simp) ?_
    rintro ⟨hnot⟩
    exact hnot ⟨s, hname⟩
  | _ =>
    have hnot : ¬ IsText t.name := by simp [IsText, hname]
    constructor
    · intro h
      obtain rfl := Except.error.inj h
      rw [← hname]
      exact .intro hnot
    · rintro ⟨_⟩
      rw [hname]

theorem fullName_eq_ok_iff : (∃ s, t.fullName = .ok s) ↔ IsText t.name := by
  unfold Target.fullName Target.joined IsText
  cases t.name <;> simp

theorem targetArguments_eq_error_iff : targetArguments t = .error e ↔ NameStumbles t e := by
  rw [← fullName_eq_error_iff, targetArguments, bind_eq_error_iff]
  simp [pure, Except.pure]

theorem targetArguments_eq_ok_iff : (∃ as, targetArguments t = .ok as) ↔ IsText t.name := by
  rw [← fullName_eq_ok_iff, targetArguments]
  cases t.fullName <;> simp [bind, Except.bind, pure, Except.pure]

theorem extraArguments_of_text {s : Text} (h : t.extraFlags = .string s) :
    extraArguments t = ((Shell.words s).mapError .words).map fun words => words.map .string := by
  unfold extraArguments
  rw [h]

theorem extraArguments_of_noText (h : ¬ IsText t.extraFlags) :
    extraArguments t =
      if t.extraFlags.isTrue then .error (.noOperation ⟨t.extraFlags, "read"⟩) else .ok [] := by
  unfold extraArguments
  cases hflags : t.extraFlags with
  | string s => exact absurd ⟨s, hflags⟩ h
  | _ => rfl

theorem extraArguments_eq_error_iff : extraArguments t = .error e ↔ FlagsStumble t e := by
  by_cases htext : IsText t.extraFlags
  · obtain ⟨s, hs⟩ := htext
    rw [extraArguments_of_text hs]
    constructor
    · intro h
      cases hwords : Shell.words s with
      | ok words =>
        rw [hwords] at h
        cases h
      | error e' =>
        rw [hwords] at h
        obtain rfl := Except.error.inj h
        exact .words hs hwords
    · intro h
      cases h with
      | words hs' hwords =>
        obtain rfl := Json.string.inj (hs.symm.trans hs')
        rw [hwords]
        rfl
      | noText _ hnot => exact absurd ⟨s, hs⟩ hnot
  · rw [extraArguments_of_noText htext]
    constructor
    · intro h
      cases htrue : t.extraFlags.isTrue with
      | true =>
        rw [htrue] at h
        obtain rfl := Except.error.inj h
        exact .noText htrue htext
      | false =>
        rw [htrue] at h
        cases h
    · intro h
      cases h with
      | words hs _ => exact absurd ⟨_, hs⟩ htext
      | noText htrue _ => rw [if_pos htrue]

/-! ### Commands -/

/-- **A command that builds** takes the name of the target first, and its flags then. -/
theorem buildCommand_eq_error_iff : buildCommand tool project t = .error e ↔
    NameStumbles t e ∨ IsText t.name ∧ FlagsStumble t e := by
  rw [buildCommand, bind_eq_error_iff, targetArguments_eq_error_iff, ← targetArguments_eq_ok_iff,
    ← extraArguments_eq_error_iff]
  refine or_congr Iff.rfl ?_
  constructor
  · rintro ⟨target, htarget, h⟩
    rcases bind_eq_error_iff.mp h with h | ⟨_, _, h⟩
    · exact ⟨⟨target, htarget⟩, h⟩
    · cases h
  · rintro ⟨⟨target, htarget⟩, h⟩
    exact ⟨target, htarget, bind_eq_error_iff.mpr (.inl h)⟩

/-! The commands of a run take the flags first; they come after the name was asked for. -/

theorem flagsFirst_eq_error_iff {f : List Json → List Json → List Json} (hname : IsText t.name) :
    (do return f (← extraArguments t) (← targetArguments t)) = .error e ↔ FlagsStumble t e := by
  rw [bind_eq_error_iff, extraArguments_eq_error_iff]
  refine or_iff_left ?_
  rintro ⟨flags, _, h⟩
  obtain ⟨target, htarget⟩ := targetArguments_eq_ok_iff.mpr hname
  rw [htarget] at h
  cases h

theorem databaseCommand_eq_error_iff (hname : IsText t.name) :
    databaseCommand tool project t = .error e ↔ FlagsStumble t e :=
  flagsFirst_eq_error_iff hname

theorem headersCommand_eq_error_iff (hname : IsText t.name) :
    headersCommand tool project t = .error e ↔ FlagsStumble t e :=
  flagsFirst_eq_error_iff hname

/-! ### Showing a command -/

/-- Holds of a value in which a text can be looked for. -/
inductive Searchable : Json → Prop where
  | text {s : Text} : Searchable (.string s)
  | array {elements : List Json} : Searchable (.array elements)
  | object {members : List (Text × Json)} : Searchable (.object members)

/-- Holds of a value that is a text when a command is joined: it is one, or it is put in quotes. -/
def Joinable (v : Json) : Prop :=
  IsText v ∨ holds v " " = .ok true ∧ holds v "\"" = .ok false

/-- Holds of a command that cannot be shown, and of the fault: an argument cannot be searched, or
    all can and one is no text in the end. -/
inductive Unshown (command : List Json) : Fault → Prop where
  | search {e : Fault} :
      FirstOf Searchable (fun _ v => ¬ Searchable v ∧ e = .wrongType (.search v)) command →
      Unshown command e
  | join {e : Fault} : (∀ v ∈ command, Searchable v) →
      FirstOf Joinable (fun n v => ¬ Joinable v ∧ e = .wrongType (.argument n v)) command →
      Unshown command e

/-- What becomes of an argument that can be searched. -/
def shownAs (v : Json) (spaced quoted : Bool) : Json :=
  if spaced && !quoted then .string ("\"" ++ v.plain ++ "\"") else v

theorem shownArgument_of_holds {spaced quoted : Bool} (hspaced : holds v " " = .ok spaced)
    (hquoted : holds v "\"" = .ok quoted) : shownArgument v = .ok (shownAs v spaced quoted) := by
  unfold shownArgument
  rw [hspaced, hquoted]
  cases spaced <;> cases quoted <;> rfl

theorem holds_of_searchable (h : Searchable v) (s : Text) : ∃ found, holds v s = .ok found := by
  cases h <;> exact ⟨_, rfl⟩

/-- An argument is shown, as a text if it can be joined and as it is otherwise, or it cannot be
    searched. -/
theorem shownArgument_cases (v : Json) :
    (Searchable v ∧ ∃ u, shownArgument v = .ok u ∧
      ((Joinable v ∧ IsText u) ∨ (¬ Joinable v ∧ ¬ IsText u ∧ u = v))) ∨
    (¬ Searchable v ∧ shownArgument v = .error (.wrongType (.search v))) := by
  by_cases hsearch : Searchable v
  · left
    obtain ⟨spaced, hspaced⟩ := holds_of_searchable hsearch " "
    obtain ⟨quoted, hquoted⟩ := holds_of_searchable hsearch "\""
    refine ⟨hsearch, _, shownArgument_of_holds hspaced hquoted, ?_⟩
    unfold Joinable
    rw [hspaced, hquoted]
    by_cases hput : spaced = true ∧ quoted = false
    · obtain ⟨rfl, rfl⟩ := hput
      exact .inl ⟨.inr ⟨rfl, rfl⟩, _, rfl⟩
    · -- the argument stays what it is
      have hsame : shownAs v spaced quoted = v := by
        cases spaced <;> cases quoted <;> simp_all [shownAs]
      rw [hsame]
      by_cases htext : IsText v
      · exact .inl ⟨.inl htext, htext⟩
      · refine .inr ⟨?_, htext, rfl⟩
        rintro (h | ⟨h, h'⟩)
        · exact htext h
        · exact hput ⟨Except.ok.inj h, Except.ok.inj h'⟩
  · right
    refine ⟨hsearch, ?_⟩
    cases v with
    | string s => exact absurd .text hsearch
    | array elements => exact absurd .array hsearch
    | object members => exact absurd .object hsearch
    | _ => rfl

/-- Texts are joined up to the first argument that is none. -/
theorem texts_cons_eq_error_iff {n : Nat} {as : List Json} : texts n (v :: as) = .error e ↔
    (¬ IsText v ∧ e = .wrongType (.argument n v)) ∨ IsText v ∧ texts (n + 1) as = .error e := by
  cases v with
  | string s =>
    have htext : IsText (.string s) := ⟨s, rfl⟩
    have hmore : texts n (.string s :: as) = (texts (n + 1) as).map (s :: ·) := rfl
    rw [hmore]
    cases texts (n + 1) as <;> simp [htext, Except.map]
  | _ => simp [texts, IsText, eq_comm]

/-- A command whose arguments can be searched is joined up to the first that is no text. -/
theorem joined_eq_error_iff (hall : ∀ v ∈ command, Searchable v) (n : Nat) :
    ∃ shown, command.mapM shownArgument = .ok shown ∧ (texts n shown = .error e ↔
      FirstOf Joinable (fun i v => ¬ Joinable v ∧ e = .wrongType (.argument (n + i) v)) command) := by
  induction command generalizing n with
  | nil => exact ⟨[], rfl, iff_of_false (by simp [texts]) not_firstOf_nil⟩
  | cons v command ih =>
    obtain ⟨hv, hrest⟩ := List.forall_mem_cons.mp hall
    obtain ⟨shown, hshown, hiff⟩ := ih hrest (n + 1)
    rcases shownArgument_cases v with ⟨_, u, hu, hcases⟩ | ⟨hnot, _⟩
    · refine ⟨u :: shown, ?_, ?_⟩
      · rw [List.mapM_cons, hu, hshown]
        rfl
      · have hposition : ∀ i, n + 1 + i = n + (i + 1) := by omega
        rw [texts_cons_eq_error_iff, firstOf_cons_iff, hiff]
        simp only [hposition]
        rcases hcases with ⟨hjoin, htext⟩ | ⟨hjoin, htext, rfl⟩
        · simp [hjoin, htext]
        · simp [hjoin, htext]
    · exact absurd hv hnot

theorem exists_shownArgument_iff : (∃ u, shownArgument v = .ok u) ↔ Searchable v := by
  rcases shownArgument_cases v with ⟨h, u, hu, _⟩ | ⟨h, hv⟩
  · exact iff_of_true ⟨u, hu⟩ h
  · exact iff_of_false (by simp [hv]) h

theorem shownArgument_eq_error_iff :
    shownArgument v = .error e ↔ ¬ Searchable v ∧ e = .wrongType (.search v) := by
  rcases shownArgument_cases v with ⟨h, u, hu, _⟩ | ⟨h, hv⟩
  · simp [hu, h]
  · simp [hv, h, eq_comm]

/-- **A command that cannot be shown.** -/
theorem shownCommand_eq_error_iff : shownCommand command = .error e ↔ Unshown command e := by
  rw [shownCommand, bind_eq_error_iff, mapM_eq_error_iff]
  simp only [exists_shownArgument_iff, shownArgument_eq_error_iff]
  constructor
  · rintro (h | ⟨shown, hshown, h⟩)
    · exact .search h
    · have hall : ∀ v ∈ command, Searchable v := by
        intro v hv
        obtain ⟨u, hu⟩ := exists_ok_of_mapM hshown v hv
        exact exists_shownArgument_iff.mp ⟨u, hu⟩
      obtain ⟨shown', hshown', hiff⟩ := joined_eq_error_iff (e := e) hall 0
      obtain rfl := Except.ok.inj (hshown.symm.trans hshown')
      simp only [Nat.zero_add] at hiff
      rcases bind_eq_error_iff.mp h with h | ⟨_, _, h⟩
      · exact .join hall (hiff.mp h)
      · cases h
  · intro h
    cases h with
    | search h => exact .inl h
    | join hall h =>
      obtain ⟨shown, hshown, hiff⟩ := joined_eq_error_iff (e := e) hall 0
      simp only [Nat.zero_add] at hiff
      exact .inr ⟨shown, hshown, bind_eq_error_iff.mpr (.inl (hiff.mpr h))⟩

/-- A command of texts can be shown. -/
theorem not_unshown_of_texts (h : ∀ v ∈ command, IsText v) : ¬ Unshown command e := by
  have hsearch : ∀ v ∈ command, Searchable v := by
    intro v hv
    obtain ⟨s, rfl⟩ := h v hv
    exact .text
  intro hnot
  cases hnot with
  | search hfirst =>
    obtain ⟨front, v, back, rfl, _, hv, _⟩ := hfirst
    exact hv (hsearch v (by simp))
  | join _ hfirst =>
    obtain ⟨front, v, back, rfl, _, hv, _⟩ := hfirst
    exact hv (.inl (h v (by simp)))

end Tool

end ClangDb

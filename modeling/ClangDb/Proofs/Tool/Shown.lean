import ClangDb.Proofs.Shell.Words
import ClangDb.Proofs.Text.Occurrence
import ClangDb.Proofs.Tool.Command

/-! # Reading a command that is shown

    A command is shown on one line: its arguments with a space between two, and
    those that hold a space in quotes.  The line is read by the rules by which the
    flags of a target are read.  Nothing in an argument is escaped, so quotes and
    backslashes of its own would be read in another way, and so would separators
    other than the space.  An argument without them is shown as a text of one word:
    either it is all literal as it stands, or it is so between the quotes.  Where
    its spaces stand does not matter.

    Key theorems:
    - `shownCommand_texts`: the line of a command,
    - `readsAs_shownText`: an argument is shown as one word,
    - `words_shownCommand`: a command is read back.
-/

namespace ClangDb

namespace Tool

variable {argument : Text}

/-! ### The line of a command -/

/-- An argument as it is shown. -/
def shownText (argument : Text) : Text :=
  if .char ' ' ∈ argument ∧ .char '"' ∉ argument then "\"" ++ argument ++ "\"" else argument

theorem shownArgument_text (argument : Text) :
    shownArgument (.string argument) = .ok (.string (shownText argument)) := by
  have hspaced : holds (.string argument) " " = .ok (decide (.char ' ' ∈ argument)) :=
    congrArg Except.ok (Text.contains_singleton argument (.char ' '))
  have hquoted : holds (.string argument) "\"" = .ok (decide (.char '"' ∈ argument)) :=
    congrArg Except.ok (Text.contains_singleton argument (.char '"'))
  rw [shownArgument_of_holds hspaced hquoted]
  unfold shownAs shownText
  by_cases h : .char ' ' ∈ argument ∧ .char '"' ∉ argument
  · rw [if_pos (by simpa using h), if_pos h]
    rfl
  · rw [if_neg (by simpa using h), if_neg h]

theorem texts_map_string (n : Nat) (shown : List Text) :
    texts n (shown.map .string) = .ok shown := by
  induction shown generalizing n with
  | nil => rfl
  | cons s shown ih =>
    show (texts (n + 1) (shown.map .string)).map (s :: ·) = .ok (s :: shown)
    rw [ih]
    rfl

/-- **A command of texts is shown on one line.** -/
theorem shownCommand_texts (command : List Text) :
    shownCommand (command.map .string) = .ok (Text.join " " (command.map shownText)) := by
  have hshown : (command.map Json.string).mapM shownArgument =
      .ok ((command.map shownText).map .string) := by
    induction command with
    | nil => rfl
    | cons argument command ih =>
      rw [List.map_cons, List.mapM_cons, shownArgument_text, ih]
      rfl
  unfold shownCommand
  rw [hshown]
  show (do return Text.join " " (← texts 0 ((command.map shownText).map .string))) = _
  rw [texts_map_string]
  rfl

/-! ### Reading it back -/

/-- Holds of an argument that is not empty and has no quotes, no backslashes, and no separators but
    spaces.  White space that separates nothing may stand in it. -/
structure Unmarked (argument : Text) : Prop where
  ne_nil : argument ≠ []
  noQuote : ∀ c ∈ argument, Shell.Quote.of? c = none
  noBackslash : .char '\\' ∉ argument
  noBreak : ∀ c ∈ argument, Shell.isSeparator c = true → c = .char ' '

/-- **Such an argument is shown as a text of one word**, which is the argument. -/
theorem readsAs_shownText (h : Unmarked argument) : Shell.ReadsAs (shownText argument) argument := by
  have hbackslash : ∀ c ∈ argument, c ≠ .char '\\' := fun c hc he => h.noBackslash (he ▸ hc)
  have hquote : .char '"' ∉ argument := by
    intro hmem
    cases h.noQuote _ hmem
  by_cases hspace : .char ' ' ∈ argument
  · -- between the quotes a space is literal
    rw [shownText, if_pos ⟨hspace, hquote⟩]
    apply Shell.readsAs_quoted
    intro c hc
    constructor
    · rw [h.noQuote c hc]
      exact (Option.some_ne_none _).symm
    · exact fun hboth => hbackslash c hc hboth.1
  · -- without a space no separator is left
    rw [shownText, if_neg fun hboth => hspace hboth.1]
    apply Shell.readsAs_bare h.ne_nil
    intro c hc
    refine ⟨?_, hbackslash c hc, h.noQuote c hc⟩
    rw [Bool.eq_false_iff]
    intro hseparator
    exact hspace (h.noBreak c hc hseparator ▸ hc)

/-- **A command that is shown can be read back.**  If its arguments are not empty and have no
    quotes, no backslashes, and no separators but spaces, wherever and however often these stand,
    then the command is shown, and the words of what is shown are the arguments.  So they are when
    it is given as the extra flags of a target. -/
theorem words_shownCommand {command : List Text} (h : ∀ argument ∈ command, Unmarked argument) :
    ∃ line, shownCommand (command.map .string) = .ok line ∧ Shell.words line = .ok command ∧
      ∀ t : Target, t.extraFlags = .string line →
        extraArguments t = .ok (command.map .string) := by
  have hwords : Shell.words (Text.join " " (command.map shownText)) = .ok command := by
    apply Shell.words_join
    rw [List.forall₂_map_left_iff]
    exact List.forall₂_same.mpr fun argument hargument => readsAs_shownText (h argument hargument)
  refine ⟨_, shownCommand_texts command, hwords, ?_⟩
  intro t ht
  rw [extraArguments_of_text ht, hwords]
  rfl

/-- A command with spaces at the edges of its arguments, several in a row, and alone. -/
def spacedCommand : List Text := [" a b/ubt", "-x", "end ", " ", "two  spaces", "-project=/P/G"]

theorem words_shownCommand_spaced :
    (∀ argument ∈ spacedCommand, Unmarked argument) ∧
      shownCommand (spacedCommand.map .string) =
        .ok "\" a b/ubt\" -x \"end \" \" \" \"two  spaces\" -project=/P/G" ∧
      Shell.words "\" a b/ubt\" -x \"end \" \" \" \"two  spaces\" -project=/P/G" =
        .ok spacedCommand := by
  have hunmarked : ∀ argument ∈ spacedCommand, Unmarked argument := by
    have hall : ∀ argument ∈ spacedCommand, argument ≠ [] ∧
        (∀ c ∈ argument, Shell.Quote.of? c = none) ∧ .char '\\' ∉ argument ∧
        ∀ c ∈ argument, Shell.isSeparator c = true → c = .char ' ' := by
      decide
    intro argument hargument
    obtain ⟨hne, hquote, hbackslash, hbreak⟩ := hall argument hargument
    exact ⟨hne, hquote, hbackslash, hbreak⟩
  obtain ⟨line, hline, hwords, _⟩ := words_shownCommand hunmarked
  have hshown : shownCommand (spacedCommand.map .string) =
      .ok "\" a b/ubt\" -x \"end \" \" \" \"two  spaces\" -project=/P/G" := rfl
  obtain rfl := Except.ok.inj (hline.symm.trans hshown)
  exact ⟨hunmarked, hshown, hwords⟩

end Tool

end ClangDb

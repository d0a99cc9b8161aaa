import ClangDb.Proofs.Text.Occurrence
import ClangDb.Proofs.Text.Utf8
import ClangDb.ResponseFile.Arguments

/-! # The code points of a response file's body

    The eight steps drop code points and bring in none but characters.
    So the body of a response file has bytes if the rest of the command has.

    Key theorems:
    - `Step.mem_apply`: one step,
    - `encodable_body`: all eight.
-/

namespace ClangDb

namespace Arguments

variable {c : CodePoint} {s : Text}

theorem mem_unescapeClosing (h : c ∈ unescapeClosing s) : c ∈ s := by
  induction s with
  | nil => exact h
  | cons d r ih =>
    -- a backslash is kept or dropped, and nothing else happens
    have hkept : c ∈ d :: unescapeClosing r → c ∈ d :: r := by
      intro hc
      rcases List.mem_cons.mp hc with rfl | hc
      · exact List.mem_cons_self
      · exact List.mem_cons_of_mem _ (ih hc)
    unfold unescapeClosing at h
    split at h
    · split at h
      · exact List.mem_cons_of_mem _ (ih h)
      · exact hkept h
    · exact hkept h

theorem mem_unescapeOpening {afterBlank : Bool} (h : c ∈ unescapeOpening afterBlank s) :
    c ∈ s := by
  induction s generalizing afterBlank with
  | nil => exact h
  | cons d r ih =>
    unfold unescapeOpening at h
    split at h
    · exact List.mem_cons_of_mem _ (ih h)
    · rcases List.mem_cons.mp h with rfl | h
      · exact List.mem_cons_self
      · exact List.mem_cons_of_mem _ (ih h)

theorem mem_dropTerminator (h : c ∈ dropTerminator s) : c ∈ s := by
  induction s with
  | nil => exact h
  | cons d r ih =>
    unfold dropTerminator at h
    split at h
    · cases h
    · rcases List.mem_cons.mp h with rfl | h
      · exact List.mem_cons_self
      · exact List.mem_cons_of_mem _ (ih h)

/-- Holds of a code point of a text and of any character. -/
def Known (s : Text) (c : CodePoint) : Prop := c ∈ s ∨ ∃ d : Char, c = .char d

theorem known_replaceAll {pat : Text} {new : String} (h : c ∈ s.replaceAll pat new) :
    Known s c := by
  rcases Text.mem_replaceAll h with h | h
  · exact .inl h
  · obtain ⟨d, _, rfl⟩ := List.mem_map.mp h
    exact .inr ⟨d, rfl⟩

/-- **A step brings in characters only.** -/
theorem Step.mem_apply {step : Step} (h : c ∈ step.apply s) : Known s c := by
  cases step with
  | protectTriples => exact known_replaceAll h
  | openDefinesAndIncludes =>
    rcases known_replaceAll h with h | h
    · exact known_replaceAll h
    · exact .inr h
  | collapsePairs => exact known_replaceAll h
  | unescapeBoundaries => exact .inl (mem_unescapeClosing (mem_unescapeOpening h))
  | slashes => exact known_replaceAll h
  | stripTerminator => exact .inl (mem_dropTerminator (Text.mem_of_mem_trim h))
  | breakLines => exact known_replaceAll h
  | restoreTriples => exact known_replaceAll h

/-- What steps bring in one after another is known from the beginning. -/
theorem known_foldl {steps : List Step}
    (h : c ∈ steps.foldl (fun s step => step.apply s) s) : Known s c := by
  induction steps generalizing s with
  | nil => exact .inl h
  | cons step steps ih =>
    rcases ih h with h | h
    · exact step.mem_apply h
    · exact .inr h

/-- **The body of a response file has bytes if the rest of the command has.** -/
theorem encodable_body {tail : Text} (h : Utf8.Encodable tail) : Utf8.Encodable (body tail) := by
  intro c hc
  rcases known_foldl hc with hc | ⟨d, rfl⟩
  · exact h c hc
  · rfl

end Arguments

end ClangDb

import ClangDb.Database.Literal
import ClangDb.Proofs.Text.Occurrence
import Mathlib.Data.List.TakeWhile

/-! # Bodies of string literals

    `literalBody?` reads units up to a closing quote.  `IsBody` says what a list
    of units is, and the two agree: a body is read if and only if it is made of
    units and a quote follows it.

    Key theorems:
    - `literalBody?_eq_some_iff`: what is read,
    - `eq_of_fileValue?`: where the value of a `"file":` key stands.
-/

namespace ClangDb

namespace Database

theorem literalBody?_quote (r : Text) : literalBody? (.char '"' :: r) = some ([], r) := by
  cases r <;> rfl

theorem literalBody?_escape (d : CodePoint) (r : Text) :
    literalBody? (.char '\\' :: d :: r) =
      (literalBody? r).map fun (body, rest) => (.char '\\' :: d :: body, rest) := by
  rw [literalBody?.eq_def]
  simp

theorem literalBody?_plain {c : CodePoint} (h₁ : c ≠ .char '"') (h₂ : c ≠ .char '\\') (r : Text) :
    literalBody? (c :: r) = (literalBody? r).map fun (body, rest) => (c :: body, rest) := by
  rw [literalBody?.eq_def]
  simp [h₁, h₂]

/-- Holds of the text between the quotes of a literal: a sequence of code points other
    than quote and backslash, and of backslashes with a code point each. -/
inductive IsBody : Text → Prop where
  | nil : IsBody []
  | plain {c : CodePoint} {r : Text} : c ≠ .char '"' → c ≠ .char '\\' → IsBody r → IsBody (c :: r)
  | escape {d : CodePoint} {r : Text} : IsBody r → IsBody (.char '\\' :: d :: r)

theorem IsBody.append {a b : Text} (ha : IsBody a) (hb : IsBody b) : IsBody (a ++ b) := by
  induction ha with
  | nil => exact hb
  | plain h₁ h₂ _ ih => exact .plain h₁ h₂ ih
  | escape _ ih => exact .escape ih

/-- A body is read up to the quote that follows it. -/
theorem IsBody.literalBody? {body : Text} (h : IsBody body) (rest : Text) :
    literalBody? (body ++ .char '"' :: rest) = some (body, rest) := by
  induction h with
  | nil => exact literalBody?_quote rest
  | plain h₁ h₂ _ ih => simp [literalBody?_plain h₁ h₂, ih]
  | escape _ ih => simp [literalBody?_escape, ih]

/-- A body ends at the first quote that is not escaped. -/
theorem IsBody.unique {body body' s s' : Text} (h : IsBody body) (h' : IsBody body')
    (heq : body ++ .char '"' :: s = body' ++ .char '"' :: s') : body = body' ∧ s = s' := by
  -- both are what is read from the one text
  have hread := h.literalBody? s
  rw [heq, h'.literalBody? s'] at hread
  obtain ⟨rfl, rfl⟩ := Prod.mk.inj (Option.some.inj hread)
  exact ⟨rfl, rfl⟩

/-- What is read is a body, and a quote follows it. -/
theorem literalBody?_spec {s body rest : Text} (h : literalBody? s = some (body, rest)) :
    IsBody body ∧ s = body ++ .char '"' :: rest := by
  induction s using literalBody?.induct generalizing body with
  | case1 => cases h
  | case2 r =>
    rw [literalBody?_quote, Option.some.injEq, Prod.mk.injEq] at h
    obtain ⟨rfl, rfl⟩ := h
    exact ⟨.nil, rfl⟩
  | case3 => simp [literalBody?] at h
  | case4 d r hq ih =>
    simp only [literalBody?_escape, Option.map_eq_some_iff, Prod.mk.injEq, Prod.exists] at h
    obtain ⟨b, a, hr, rfl, rfl⟩ := h
    obtain ⟨hb, rfl⟩ := ih hr
    exact ⟨.escape hb, rfl⟩
  | case5 c r hq hs ih =>
    simp only [literalBody?_plain hq hs, Option.map_eq_some_iff, Prod.mk.injEq,
      Prod.exists] at h
    obtain ⟨b, a, hr, rfl, rfl⟩ := h
    obtain ⟨hb, rfl⟩ := ih hr
    exact ⟨.plain hq hs hb, rfl⟩

/-- **A body is read exactly if a quote follows it.** -/
theorem literalBody?_eq_some_iff {s body rest : Text} :
    literalBody? s = some (body, rest) ↔ IsBody body ∧ s = body ++ .char '"' :: rest := by
  constructor
  · exact literalBody?_spec
  · rintro ⟨hb, rfl⟩
    exact hb.literalBody? rest

/-- A literal stands between two quotes, after padding. -/
theorem eq_of_literal? {s body : Text} (h : literal? s = some body) :
    ∃ pad rest, s = pad ++ .char '"' :: (body ++ .char '"' :: rest) ∧
      (∀ c ∈ pad, isPadding c = true) ∧ IsBody body := by
  have hs := List.takeWhile_append_dropWhile (p := isPadding) (l := s)
  have hpad : ∀ c ∈ s.takeWhile isPadding, isPadding c = true :=
    fun c hc => List.mem_takeWhile_imp hc
  unfold literal? at h
  split at h
  · cases h
  · next c r hdrop =>
    split at h
    · next hc =>
      obtain ⟨⟨b, rest⟩, hr, rfl⟩ := Option.map_eq_some_iff.mp h
      obtain ⟨hb, rfl⟩ := literalBody?_eq_some_iff.mp hr
      rw [hdrop, hc] at hs
      exact ⟨_, rest, hs.symm, hpad, hb⟩
    · cases h

/-- The value of a file key stands behind the key. -/
theorem eq_of_fileValue? {line file : Text} (h : fileValue? line = some file) :
    ∃ before pad rest,
      line = before ++ (fileKey ++ (pad ++ .char '"' :: (file ++ .char '"' :: rest))) ∧
      IsBody file ∧ ∀ c ∈ pad, isPadding c = true := by
  simp only [fileValue?, bind, Option.bind_eq_some_iff] at h
  obtain ⟨⟨before, after⟩, hcut, hlit⟩ := h
  obtain ⟨pad, rest, hafter, hpad, hbody⟩ := eq_of_literal? (s := after) hlit
  exact ⟨before, pad, rest, by rw [Text.eq_of_cut? hcut, hafter], hbody, hpad⟩

theorem mem_of_mem_fileValue? {line file : Text} (h : fileValue? line = some file) {c : CodePoint}
    (hc : c ∈ file) : c ∈ line := by
  obtain ⟨before, pad, rest, rfl, _⟩ := eq_of_fileValue? h
  simp [hc]

end Database

end ClangDb

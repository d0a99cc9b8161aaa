import ClangDb.Project.Answer
import ClangDb.Proofs.World

/-! # What becomes of a fault

    An operation on a project answers a fault in what it was given, and goes on
    with what it got otherwise.  All other faults end it without an answer.

    Key theorems:
    - `run_orFailure`: which faults are answered,
    - `orFailure_bind_error_iff`: which ones are left, of this step and the next.
-/

namespace ClangDb

namespace Task

variable {α β : Type} {w : World} {e : Fault}

/-- A fault in what was given is answered, and the others are left. -/
theorem run_orFailure (t : Task α) (w : World) :
    t.orFailure.run w = match t.run w with
      | (.ok a, w') => (.ok (.ok a), w')
      | (.error e, w') =>
        if e.isInvalidValue then (.ok (.error (.failure e.message [])), w') else (.error e, w') := by
  unfold orFailure
  rw [run_bind_ok (run_outcome t w)]
  rcases t.run w with ⟨e | a, w'⟩
  · cases he : e.isInvalidValue <;> simp [he]
  · rfl

/-- A fault that is left comes from a step whose faults are answered where they can be, or from
    what is done with its result. -/
theorem orFailure_bind_error_iff {t : Task α} {f : Except Answer α → Task Answer}
    (hanswer : ∀ answer, f (.error answer) = pure answer) :
    ((t.orFailure >>= f).run w).1 = .error e ↔
      ((t.run w).1 = .error e ∧ e.isInvalidValue = false) ∨
      ∃ a w₁, t.run w = (.ok a, w₁) ∧ ((f (.ok a)).run w₁).1 = .error e := by
  rw [run_bind, run_orFailure]
  rcases t.run w with ⟨e' | a, w₁⟩
  · cases he : e'.isInvalidValue with
    | true =>
      simp only [he, if_true, hanswer, run_pure]
      refine iff_of_false (fun h => by cases h) ?_
      rintro (⟨h, hnot⟩ | ⟨_, _, h, _⟩)
      · obtain rfl := Except.error.inj h
        rw [he] at hnot
        cases hnot
      · cases (Prod.mk.inj h).1
    | false =>
      simp only [he, Bool.false_eq_true, if_false]
      constructor
      · intro h
        obtain rfl := Except.error.inj h
        exact .inl ⟨rfl, he⟩
      · rintro (⟨h, _⟩ | ⟨_, _, h, _⟩)
        · exact congrArg Except.error (Except.error.inj h)
        · cases (Prod.mk.inj h).1
  · constructor
    · intro h
      exact .inr ⟨a, w₁, rfl, h⟩
    · rintro (⟨h, _⟩ | ⟨_, _, h, hf⟩)
      · cases h
      · obtain ⟨ha, rfl⟩ := Prod.mk.inj h
        obtain rfl := Except.ok.inj ha
        exact hf

end Task

end ClangDb

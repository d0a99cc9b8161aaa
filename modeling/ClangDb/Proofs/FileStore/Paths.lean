import ClangDb.Proofs.FileStore.Write

/-! # Texts that are no paths

    A text with a null character, or one that has no bytes, is no path: every
    operation of the store refuses it alike, before it looks at anything.  All
    other failures name a cause and the path.

    Key theorems:
    - `refuses_walk_iff`: what is refused when a path is followed,
    - `refuses_find_iff`, `refuses_read_iff`, `refuses_write_iff`: and by the operations,
    - `probe_eq_error_iff`: the failure of looking at a path.
-/

namespace ClangDb

namespace Store

variable {α β : Type} {s : Store} {path : Text} {a : AccessError}

/-- Holds of a text that is no path, and of why it is none. -/
inductive NoPath (path : Text) : AccessError → Prop where
  | null : .char '\x00' ∈ path → NoPath path .embeddedNull
  | noBytes {e : Utf8.EncodeError} : .char '\x00' ∉ path → Utf8.encode path = .error e →
      NoPath path (.unencodable e)

/-- Holds of a result that refuses a text as no path. -/
def Refuses (r : Except AccessError α) (a : AccessError) : Prop :=
  r = .error a ∧ ∀ e, a ≠ .file e

theorem not_refuses_ok (x : α) : ¬ Refuses (.ok x) a := by
  rintro ⟨h, _⟩
  cases h

theorem not_refuses_file (e : FileError) :
    ¬ Refuses (.error (.file e) : Except AccessError α) a := by
  rintro ⟨h, hfile⟩
  exact hfile e (Except.error.inj h).symm

theorem refuses_error_iff {a' : AccessError} :
    Refuses (.error a' : Except AccessError α) a ↔ a = a' ∧ ∀ e, a ≠ .file e := by
  constructor
  · rintro ⟨h, hfile⟩
    exact ⟨(Except.error.inj h).symm, hfile⟩
  · rintro ⟨rfl, hfile⟩
    exact ⟨rfl, hfile⟩

/-- Only the first step refuses, if the others do not. -/
theorem refuses_bind_iff {r : Except AccessError α} {f : α → Except AccessError β}
    (hf : ∀ x, ¬ Refuses (f x) a) : Refuses (r >>= f) a ↔ Refuses r a := by
  cases r with
  | ok x => exact iff_of_false (hf x) (not_refuses_ok x)
  | error e => exact refuses_error_iff.trans refuses_error_iff.symm

/-- A text holds a null character, or it has no bytes, or it is a path. -/
theorem noPath_cases (path : Text) :
    (.char '\x00' ∈ path ∧ ∀ a, NoPath path a ↔ a = .embeddedNull) ∨
    (.char '\x00' ∉ path ∧
      ((∃ e, Utf8.encode path = .error e ∧ ∀ a, NoPath path a ↔ a = .unencodable e) ∨
        ∃ bytes, Utf8.encode path = .ok bytes ∧ ∀ a, ¬ NoPath path a)) := by
  by_cases hnull : CodePoint.char '\x00' ∈ path
  · refine .inl ⟨hnull, fun a => ⟨?_, fun h => h ▸ .null hnull⟩⟩
    intro h
    cases h with
    | null => rfl
    | noBytes h => exact absurd hnull h
  · right
    refine ⟨hnull, ?_⟩
    cases hencode : Utf8.encode path with
    | error e =>
      refine .inl ⟨e, rfl, fun a => ⟨?_, fun h => h ▸ .noBytes hnull hencode⟩⟩
      intro h
      cases h with
      | null h => exact absurd h hnull
      | noBytes _ h =>
        obtain rfl := Except.error.inj (hencode.symm.trans h)
        rfl
    | ok bytes =>
      refine .inr ⟨bytes, rfl, fun a h => ?_⟩
      cases h with
      | null h => exact hnull h
      | noBytes _ h => cases hencode.symm.trans h

/-- **What is refused when a path is followed.** -/
theorem refuses_walk_iff (names : List Text) : Refuses (s.walk path names) a ↔ NoPath path a := by
  unfold walk
  rcases noPath_cases path with ⟨hnull, hiff⟩ | ⟨hnull, ⟨e, hencode, hiff⟩ | ⟨bytes, hencode, hnot⟩⟩
  · rw [if_pos hnull, hiff, refuses_error_iff]
    exact and_iff_left_of_imp (by rintro rfl; simp)
  · rw [if_neg hnull, hencode, hiff, refuses_error_iff]
    exact and_iff_left_of_imp (by rintro rfl; simp)
  · rw [if_neg hnull, hencode]
    refine iff_of_false ?_ (hnot a)
    simp only
    split
    · exact not_refuses_file _
    · split
      · exact not_refuses_file _
      · cases s.follow (if path.startsWith "/" then [] else s.workingDir) names with
        | ok p => exact not_refuses_ok p
        | error cause => exact not_refuses_file _

theorem refuses_locate_iff : Refuses (s.locate path) a ↔ NoPath path a := refuses_walk_iff _

theorem refuses_find_iff : Refuses (s.find path) a ↔ NoPath path a := by
  rw [← refuses_locate_iff (s := s)]
  refine refuses_bind_iff ?_
  intro p
  cases s.entry? p with
  | none => exact not_refuses_file _
  | some entry =>
    cases entry with
    | folder => exact not_refuses_ok _
    | file bytes program =>
      simp only
      split
      · exact not_refuses_file _
      · exact not_refuses_ok _

theorem refuses_read_iff : Refuses (s.read path) a ↔ NoPath path a := by
  rw [← refuses_find_iff (s := s)]
  refine refuses_bind_iff ?_
  intro entry
  cases entry with
  | folder => exact not_refuses_file _
  | file bytes program => exact not_refuses_ok _

theorem refuses_writable_iff : Refuses (s.writable path) a ↔ NoPath path a := by
  unfold writable
  split
  · rw [← refuses_walk_iff (s := s) (namesOn path).dropLast]
    refine refuses_bind_iff ?_
    intro p
    cases s.entry? p with
    | none => exact not_refuses_file _
    | some entry => cases entry <;> exact not_refuses_file _
  · rw [← refuses_locate_iff (s := s)]
    refine refuses_bind_iff ?_
    intro p
    simp only
    split
    · exact not_refuses_file _
    · exact not_refuses_ok _

/-- **What is refused when a file is written.** -/
theorem refuses_write_iff {bytes : List UInt8} : Refuses (s.write path bytes) a ↔ NoPath path a := by
  rw [← refuses_writable_iff (s := s)]
  exact refuses_bind_iff fun p => not_refuses_ok _

/-- Nothing is found at a text that is no path. -/
theorem NoPath.probe (h : NoPath path a) : s.probe path = .ok none := by
  obtain ⟨hfind, hfile⟩ := refuses_find_iff.mpr h
  unfold Store.probe
  rw [hfind]
  cases a with
  | file e => exact absurd rfl (hfile e)
  | _ => rfl

/-- Of the failures of looking at a path only a name that is too long is one. -/
theorem probe_eq_error_iff {e : FileError} :
    s.probe path = .error e ↔ s.find path = .error (.file e) ∧ e.cause = .nameTooLong := by
  unfold probe
  cases s.find path with
  | ok entry => simp
  | error access =>
    cases access with
    | file e' =>
      simp only
      split
      · next hcause =>
        constructor
        · intro h
          obtain rfl := Except.error.inj h
          exact ⟨rfl, hcause⟩
        · rintro ⟨h, _⟩
          rw [AccessError.file.inj (Except.error.inj h)]
      · next hcause =>
        refine iff_of_false (by simp) ?_
        rintro ⟨h, h'⟩
        rw [← AccessError.file.inj (Except.error.inj h)] at h'
        exact hcause h'
    | _ => simp

end Store

end ClangDb

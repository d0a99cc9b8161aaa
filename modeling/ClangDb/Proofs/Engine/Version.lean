import ClangDb.Engine.Version
import ClangDb.Proofs.World

/-! # How reading the version of an engine ends

    A version file that is missing, is no JSON or lacks a number states no
    version, and one is read off the path.  Two kinds of files are left that end
    with a fault: a document that is nested too deep, and an infinite number where
    a part of the version is expected.

    Key theorems:
    - `versionOfDocument_eq_error_iff`: which documents,
    - `version_eq_error_iff`: which engines.
-/

namespace ClangDb

namespace Engine

variable {document v : Json} {key : Text} {bytes : List UInt8} {e : Fault}

theorem readInteger_unbounded_iff : Config.readInteger v = .error (.noInteger .unbounded) ↔
    ∃ negative, v = .number (.infinite negative) := by
  cases v with
  | number x =>
    have hread : Config.readInteger (.number x) = x.truncate.mapError .noInteger := rfl
    rw [hread]
    cases x with
    | nan => exact iff_of_false (fun h => by cases h) (by simp)
    | infinite negative => exact iff_of_true rfl ⟨negative, rfl⟩
    | finite negative m q => exact iff_of_false (fun h => by cases h) (by simp)
  | string s =>
    have hread : Config.readInteger (.string s) = (Number.integer s).mapError .integer := rfl
    rw [hread]
    refine iff_of_false ?_ (by simp)
    cases Number.integer s <;> exact fun h => by cases h
  | _ => simp [Config.readInteger]

/-- A part of the version that a document states. -/
def part (document : Json) (key : Text) : Except Fault (Option Int) :=
  match document.get? key with
  | none => pure none
  | some value => match Config.readInteger value with
    | .ok n => pure (some n)
    | .error (.noInteger .unbounded) => throw (Fault.noInteger .unbounded)
    | .error _ => pure none

/-- Holds of a document with an infinite number at a key. -/
def Unbounded (document : Json) (key : Text) : Prop :=
  ∃ negative, document.get? key = some (.number (.infinite negative))

/-- Holds of a document with an integer at a key. -/
def States (document : Json) (key : Text) : Prop :=
  ∃ v n, document.get? key = some v ∧ Config.readInteger v = .ok n

/-- A part of the version is infinite, or stated, or it is missing. -/
theorem part_cases (document : Json) (key : Text) :
    (Unbounded document key ∧ part document key = .error (.noInteger .unbounded)) ∨
    (¬ Unbounded document key ∧ States document key ∧ ∃ n, part document key = .ok (some n)) ∨
    (¬ Unbounded document key ∧ ¬ States document key ∧ part document key = .ok none) := by
  unfold Unbounded States part
  cases hget : document.get? key with
  | none => simp [pure, Except.pure]
  | some v =>
    cases hread : Config.readInteger v with
    | ok n =>
      have hnot : ¬ ∃ negative, v = .number (.infinite negative) := by
        intro h
        rw [readInteger_unbounded_iff.mpr h] at hread
        cases hread
      right
      left
      refine ⟨?_, ⟨v, n, rfl, hread⟩, n, by simp [hread, pure, Except.pure]⟩
      rintro ⟨negative, h⟩
      exact hnot ⟨negative, Option.some.inj h⟩
    | error e =>
      by_cases h : e = .noInteger .unbounded
      · rw [h] at hread
        obtain ⟨negative, rfl⟩ := readInteger_unbounded_iff.mp hread
        left
        exact ⟨⟨negative, rfl⟩, by simp [hread, throw, throwThe, MonadExceptOf.throw]⟩
      · right
        right
        refine ⟨?_, ?_, ?_⟩
        · rintro ⟨negative, hv⟩
          obtain rfl := Option.some.inj hv
          rw [readInteger_unbounded_iff.mpr ⟨negative, rfl⟩] at hread
          exact h (Except.error.inj hread).symm
        · rintro ⟨v', n, hv, hn⟩
          obtain rfl := Option.some.inj hv
          rw [hn] at hread
          cases hread
        · simp only [hread]
          rfl

theorem versionOfDocument_eq (document : Json) : versionOfDocument document = (do
    match ← part document "MajorVersion" with
    | none => return none
    | some major => match ← part document "MinorVersion" with
      | none => return none
      | some minor => return numberOf? (Text.ofInt major) (Text.ofInt minor)) := rfl

/-- **Which documents end with a fault**: an infinite number is a part of the version that they
    state. -/
theorem versionOfDocument_eq_error_iff : versionOfDocument document = .error e ↔
    (Unbounded document "MajorVersion" ∨
      States document "MajorVersion" ∧ Unbounded document "MinorVersion") ∧
    e = .noInteger .unbounded := by
  rw [versionOfDocument_eq, bind_eq_error_iff]
  rcases part_cases document "MajorVersion" with
    ⟨hmajor, hpart⟩ | ⟨hmajor, hstates, n, hpart⟩ | ⟨hmajor, hstates, hpart⟩
  · simp [hpart, hmajor, eq_comm]
  · rcases part_cases document "MinorVersion" with
      ⟨hminor, hpart'⟩ | ⟨hminor, _, m, hpart'⟩ | ⟨hminor, _, hpart'⟩
    · simp [hpart, hpart', hmajor, hminor, hstates, bind, Except.bind, eq_comm]
    · simp [hpart, hpart', hmajor, hminor, bind, Except.bind, pure, Except.pure]
    · simp [hpart, hpart', hmajor, hminor, bind, Except.bind, pure, Except.pure]
  · simp [hpart, hmajor, hstates, pure, Except.pure]

/-- Holds of a version file that ends with a fault, and of the fault. -/
inductive VersionStumbles (bytes : List UInt8) : Fault → Prop where
  | tooDeep {text : Text} {container : Json.Container} : Utf8.decode bytes = .ok text →
      Json.read (Text.universal text) = .error (.tooDeep container) →
      VersionStumbles bytes (.document (.tooDeep container))
  | unbounded {text : Text} {document : Json} : Utf8.decode bytes = .ok text →
      Json.read (Text.universal text) = .ok document →
      (Unbounded document "MajorVersion" ∨
        States document "MajorVersion" ∧ Unbounded document "MinorVersion") →
      VersionStumbles bytes (.noInteger .unbounded)

theorem versionOfBytes_eq_error_iff :
    versionOfBytes bytes = .error e ↔ VersionStumbles bytes e := by
  unfold versionOfBytes
  cases htext : Utf8.decode bytes with
  | error flaw =>
    refine iff_of_false (by simp) ?_
    intro h
    cases h with
    | tooDeep h => simp [htext] at h
    | unbounded h => simp [htext] at h
  | ok text =>
    have hsame : ∀ {text'}, Utf8.decode bytes = .ok text' → text' = text := fun h =>
      Except.ok.inj (h.symm.trans htext)
    cases hread : Json.read (Text.universal text) with
    | ok document =>
      simp only [hread, versionOfDocument_eq_error_iff]
      constructor
      · rintro ⟨h, rfl⟩
        exact .unbounded htext hread h
      · intro h
        cases h with
        | tooDeep h hdeep =>
          rw [hsame h, hread] at hdeep
          cases hdeep
        | unbounded h hdocument hparts =>
          rw [hsame h, hread] at hdocument
          obtain rfl := Except.ok.inj hdocument
          exact ⟨hparts, rfl⟩
    | error flaw =>
      have hnot : ∀ document, Json.read (Text.universal text) ≠ .ok document := by
        intro document h
        rw [hread] at h
        cases h
      cases flaw with
      | tooDeep container =>
        simp only [hread]
        constructor
        · intro h
          obtain rfl := Except.error.inj h
          exact .tooDeep htext hread
        · intro h
          cases h with
          | tooDeep h hdeep =>
            rw [hsame h, hread] at hdeep
            rw [Json.ReadError.tooDeep.inj (Except.error.inj hdeep)]
          | unbounded h hdocument =>
            rw [hsame h] at hdocument
            exact absurd hdocument (hnot _)
      | _ =>
        simp only [hread]
        refine iff_of_false (by simp) ?_
        intro h
        cases h with
        | tooDeep h hdeep =>
          rw [hsame h, hread] at hdeep
          cases hdeep
        | unbounded h hdocument =>
          rw [hsame h] at hdocument
          exact absurd hdocument (hnot _)

/-- **Which engines end with a fault**: those with such a version file. -/
theorem version_eq_error_iff {s : Store} {root : Text} : version s root = .error e ↔
    ∃ bytes, s.read (versionFile root).toText = .ok bytes ∧ VersionStumbles bytes e := by
  unfold version
  cases hread : s.read (versionFile root).toText with
  | error access =>
    refine iff_of_false ?_ (by simp)
    simp [bind, Except.bind, pure, Except.pure]
  | ok bytes =>
    simp only [bind_eq_error_iff, versionOfBytes_eq_error_iff]
    constructor
    · rintro (h | ⟨stated, _, h⟩)
      · exact ⟨bytes, rfl, h⟩
      · cases stated <;> cases h
    · rintro ⟨bytes', hbytes, h⟩
      rw [Except.ok.inj hbytes]
      exact .inl h

end Engine

end ClangDb

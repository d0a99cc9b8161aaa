import ClangDb.Engine.Install
import ClangDb.Proofs.Engine.Version
import ClangDb.Proofs.FileStore.Paths

/-! # How detecting an engine ends

    Detection ends with an engine or with none.  A project file that cannot be read
    or is no JSON has no engine, and neither has a folder that cannot be asked in
    the registry.  Everything else that is amiss on the way is a fault, and the
    predicates below list what: in the project file, in the registry, in the
    folders that are tried, and in the version file of the engine that is found.

    Key theorems:
    - `root_eq_error_iff`: where no root can be told,
    - `install_eq_error_iff`: where no engine can be told for an association,
    - `run_detect`, `run_detect_eq_some_iff`: where detection ends with a fault, and where with
      an engine.
-/

namespace ClangDb

namespace Engine

variable {host : Host} {s : Store} {name : Text} {roots : List Path} {root : Path} {w : World}
  {e : Fault}

/-! ### Roots -/

/-- Holds of a root whose folder of the engine has too long a path to look at, and of the fault. -/
inductive RootTooLong (s : Store) (root : Path) : Fault → Prop where
  | intro {e : FileError} : s.find (root.join "Engine").toText = .error (.file e) →
      e.cause = .nameTooLong → RootTooLong s root (.access (.file e))

theorem holdsEngine_eq_error_iff : holdsEngine s root = .error e ↔ RootTooLong s root e := by
  unfold holdsEngine Project.probe
  cases hprobe : s.probe (root.join "Engine").toText with
  | ok found =>
    refine iff_of_false (by simp [Except.mapError, Except.map]) ?_
    rintro ⟨hfind, hcause⟩
    rw [Store.probe_eq_error_iff.mpr ⟨hfind, hcause⟩] at hprobe
    cases hprobe
  | error e' =>
    obtain ⟨hfind, hcause⟩ := Store.probe_eq_error_iff.mp hprobe
    constructor
    · intro h
      obtain rfl := Except.error.inj h
      exact .intro hfind hcause
    · rintro ⟨hfind', _⟩
      rw [AccessError.file.inj (Except.error.inj (hfind.symm.trans hfind'))]
      rfl

/-- Roots end with a fault at the first one that holds an engine or has too long a path, if that
    one has. -/
theorem firstWithEngine_eq_error_iff : firstWithEngine s roots = .error e ↔
    FirstOf (holdsEngine s · = .ok false) (fun _ root => RootTooLong s root e) roots := by
  simp only [← holdsEngine_eq_error_iff]
  induction roots with
  | nil => exact iff_of_false (by simp [firstWithEngine]) not_firstOf_nil
  | cons root more ih =>
    rw [firstOf_cons_iff, ← ih, firstWithEngine]
    cases holdsEngine s root with
    | error e' => simp
    | ok holds => cases holds <;> simp

/-- Where the registry of a machine that has one names the root for an association. -/
def registryPlace (name : Text) : Text × Text :=
  if isIdentifier name then (buildsKey, name) else (launcherKey name, "InstalledDirectory")

/-- The root that the registry gives for an association, where there may be one. -/
def rootOfRegistry (host : Host) (s : Store) (name : Text) : Except Fault (Option Text) :=
  if host.platform = .windows then rootInRegistry host s name (isIdentifier name) else pure none

/-- Holds of a machine whose registry has no text for an association, and of the fault. -/
inductive RegistryStumbles (host : Host) (name : Text) : Fault → Prop where
  | intro {v : Json} : host.platform = .windows →
      registered? host (registryPlace name).1 (registryPlace name).2 = some v →
      (∀ root, v ≠ .string root) → RegistryStumbles host name (.wrongType (.path v))

theorem rootInRegistry_eq (host : Host) (s : Store) (name : Text) :
    rootInRegistry host s name (isIdentifier name) =
      registeredRoot host s (registryPlace name).1 (registryPlace name).2 := by
  unfold rootInRegistry registryPlace
  split <;> rfl

theorem rootOfRegistry_eq_error_iff :
    rootOfRegistry host s name = .error e ↔ RegistryStumbles host name e := by
  unfold rootOfRegistry
  by_cases hwindows : host.platform = .windows
  · rw [if_pos hwindows, rootInRegistry_eq, registeredRoot]
    cases hvalue : registered? host (registryPlace name).1 (registryPlace name).2 with
    | none =>
      refine iff_of_false (by simp) ?_
      rintro ⟨_, h, _⟩
      rw [hvalue] at h
      cases h
    | some v =>
      cases v with
      | string root =>
        refine iff_of_false ?_ ?_
        · simp only
          split <;> simp
        · rintro ⟨_, h, hnot⟩
          rw [hvalue] at h
          exact hnot root (Option.some.inj h).symm
      | _ =>
        constructor
        · intro h
          obtain rfl := Except.error.inj h
          exact .intro hwindows hvalue (by simp)
        · rintro ⟨_, h, _⟩
          rw [hvalue] at h
          obtain rfl := Option.some.inj h
          rfl
  · rw [if_neg hwindows]
    refine iff_of_false (by simp [pure, Except.pure]) ?_
    rintro ⟨h, _⟩
    exact hwindows h

/-- Holds of a machine on which no root can be told for an association, and of the fault. -/
inductive RootStumbles (host : Host) (s : Store) (name : Text) : Fault → Prop where
  | registry {e : Fault} : RegistryStumbles host name e → RootStumbles host s name e
  /-- The home folder, in which roots are looked for, is unknown. -/
  | home {e : Fault} : rootOfRegistry host s name = .ok none → isIdentifier name = false →
      host.platform ≠ .windows → Project.home host = .error e → RootStumbles host s name e
  /-- A root that is tried before one that holds an engine has too long a path. -/
  | tooLong {roots : List Path} {e : Fault} :
      rootOfRegistry host s name = .ok none →
      candidates host name (isIdentifier name) = .ok roots →
      FirstOf (holdsEngine s · = .ok false) (fun _ root => RootTooLong s root e) roots →
      RootStumbles host s name e

theorem candidates_eq_error_iff : candidates host name (isIdentifier name) = .error e ↔
    isIdentifier name = false ∧ host.platform ≠ .windows ∧ Project.home host = .error e := by
  unfold candidates
  cases isIdentifier name with
  | true => simp [pure, Except.pure]
  | false =>
    cases hplatform : host.platform with
    | windows => simp [pure, Except.pure]
    | mac => cases Project.home host <;> simp [bind, Except.bind, pure, Except.pure]
    | linux => cases Project.home host <;> simp [bind, Except.bind, pure, Except.pure]

theorem root_eq (host : Host) (s : Store) (name : Text) : Engine.root host s name = (do
    match ← rootOfRegistry host s name with
    | some root => return some root
    | none =>
      let found ← firstWithEngine s (← candidates host name (isIdentifier name))
      return found.map Path.toText) := by
  unfold Engine.root rootOfRegistry
  split <;> rfl

/-- **Where no root can be told for an association.** -/
theorem root_eq_error_iff :
    Engine.root host s name = .error e ↔ RootStumbles host s name e := by
  rw [root_eq, bind_eq_error_iff, rootOfRegistry_eq_error_iff]
  constructor
  · rintro (h | ⟨found, hregistry, h⟩)
    · exact .registry h
    · cases found with
      | some root => cases h
      | none =>
        rcases bind_eq_error_iff.mp h with h | ⟨roots, hroots, h⟩
        · obtain ⟨hname, hplatform, hhome⟩ := candidates_eq_error_iff.mp h
          exact .home hregistry hname hplatform hhome
        · rcases bind_eq_error_iff.mp h with h | ⟨_, _, h⟩
          · exact .tooLong hregistry hroots (firstWithEngine_eq_error_iff.mp h)
          · cases h
  · intro h
    cases h with
    | registry h => exact .inl h
    | home hregistry hname hplatform hhome =>
      refine .inr ⟨none, hregistry, bind_eq_error_iff.mpr (.inl ?_)⟩
      exact candidates_eq_error_iff.mpr ⟨hname, hplatform, hhome⟩
    | tooLong hregistry hroots hroot =>
      refine .inr ⟨none, hregistry, bind_eq_error_iff.mpr (.inr ⟨_, hroots, ?_⟩)⟩
      exact bind_eq_error_iff.mpr (.inl (firstWithEngine_eq_error_iff.mpr hroot))

/-! ### Engines -/

/-- Holds of a machine on which no engine can be told for an association, and of the fault: no
    root can be told, or the version of the engine that is found cannot. -/
inductive InstallStumbles (host : Host) (s : Store) (name : Text) : Fault → Prop where
  | root {e : Fault} : RootStumbles host s name e → InstallStumbles host s name e
  | version {found : Text} {bytes : List UInt8} {e : Fault} :
      Engine.root host s name = .ok (some found) →
      s.read (versionFile (Path.normalize found)).toText = .ok bytes → VersionStumbles bytes e →
      InstallStumbles host s name e

/-- **Where no engine can be told for an association.** -/
theorem install_eq_error_iff : install host s name = .error e ↔ InstallStumbles host s name e := by
  unfold install
  rw [bind_eq_error_iff, root_eq_error_iff]
  constructor
  · rintro (h | ⟨found, hroot, h⟩)
    · exact .root h
    · cases found with
      | none => cases h
      | some found =>
        rcases bind_eq_error_iff.mp h with h | ⟨_, _, h⟩
        · obtain ⟨bytes, hread, hstumbles⟩ := version_eq_error_iff.mp h
          exact .version hroot hread hstumbles
        · cases h
  · intro h
    cases h with
    | root h => exact .inl h
    | version hroot hread hstumbles =>
      refine .inr ⟨some _, hroot, bind_eq_error_iff.mpr (.inl ?_)⟩
      exact version_eq_error_iff.mpr ⟨_, hread, hstumbles⟩

/-- The association of a document is a text, or it counts and is none, or there is none. -/
theorem association_cases (document : Json) :
    (∃ name, name ≠ [] ∧ document.get? "EngineAssociation" = some (.string name) ∧
      association document = .ok (some name)) ∨
    (∃ v, document.get? "EngineAssociation" = some v ∧ v.isTrue = true ∧
      (∀ name, v ≠ .string name) ∧ association document = .error (.noOperation ⟨v, "strip"⟩)) ∨
    ((∀ v, document.get? "EngineAssociation" = some v → v.isTrue = false) ∧
      association document = .ok none) := by
  unfold association
  cases hget : document.get? "EngineAssociation" with
  | none => exact .inr (.inr ⟨by simp, rfl⟩)
  | some v =>
    cases htrue : v.isTrue with
    | true =>
      cases v with
      | string name =>
        have hname : name ≠ [] := by simpa [Json.isTrue] using htrue
        exact .inl ⟨name, hname, rfl, by simp [hname]⟩
      | null => cases htrue
      | _ => exact .inr (.inl ⟨_, rfl, htrue, by simp, by simp [htrue]⟩)
    | false =>
      refine .inr (.inr ⟨?_, ?_⟩)
      · intro v' h
        rw [← Option.some.inj h]
        exact htrue
      · cases v with
        | string name =>
          have hname : name = [] := by simpa [Json.isTrue] using htrue
          simp [hname]
        | _ => simp [htrue]

/-- Holds of a file of the store that holds a document. -/
def Documents (s : Store) (file : Text) (document : Json) : Prop :=
  ∃ bytes text, s.read file = .ok bytes ∧ Utf8.decode bytes = .ok text ∧
    Json.read (Text.universal text) = .ok document

/-- Holds of a project file for which detection ends with a fault, and of the fault. -/
inductive DetectionStumbles (host : Host) (s : Store) (file : Text) : Fault → Prop where
  | noPath {a : AccessError} : Store.NoPath file a → DetectionStumbles host s file (.access a)
  | undecodable {bytes : List UInt8} {flaw : Utf8.DecodeError} : s.read file = .ok bytes →
      Utf8.decode bytes = .error flaw → DetectionStumbles host s file (.undecodable flaw)
  | tooLong {bytes : List UInt8} {text : Text} {digits : Nat} : s.read file = .ok bytes →
      Utf8.decode bytes = .ok text → Json.read (Text.universal text) = .error (.tooLong digits) →
      DetectionStumbles host s file (.document (.tooLong digits))
  | tooDeep {bytes : List UInt8} {text : Text} {container : Json.Container} :
      s.read file = .ok bytes → Utf8.decode bytes = .ok text →
      Json.read (Text.universal text) = .error (.tooDeep container) →
      DetectionStumbles host s file (.document (.tooDeep container))
  /-- The association counts and is no text. -/
  | association {document v : Json} : Documents s file document →
      document.get? "EngineAssociation" = some v → v.isTrue = true → (∀ name, v ≠ .string name) →
      DetectionStumbles host s file (.noOperation ⟨v, "strip"⟩)
  | install {document : Json} {name : Text} {e : Fault} : Documents s file document →
      document.get? "EngineAssociation" = some (.string name) → name ≠ [] →
      InstallStumbles host s name e → DetectionStumbles host s file e

/-- The engine that the document of a project file names. -/
def installOf (host : Host) (s : Store) (document : Json) : Except Fault (Option Install) := do
  match ← association document with
  | none => return none
  | some name => install host s name

theorem installOf_eq_error_iff {document : Json} : installOf host s document = .error e ↔
    (∃ v, document.get? "EngineAssociation" = some v ∧ v.isTrue = true ∧
      (∀ name, v ≠ .string name) ∧ e = .noOperation ⟨v, "strip"⟩) ∨
    ∃ name, document.get? "EngineAssociation" = some (.string name) ∧ name ≠ [] ∧
      InstallStumbles host s name e := by
  unfold installOf
  rw [bind_eq_error_iff]
  rcases association_cases document with ⟨name, hname, hget, hassociation⟩ |
    ⟨v, hget, htrue, hnot, hassociation⟩ | ⟨hnone, hassociation⟩
  · simp [hassociation, hget, hname, install_eq_error_iff]
  · rw [hassociation]
    constructor
    · rintro (h | ⟨_, h, _⟩)
      · exact .inl ⟨v, hget, htrue, hnot, (Except.error.inj h).symm⟩
      · cases h
    · rintro (⟨v', hget', _, _, rfl⟩ | ⟨name, hget', _⟩)
      · obtain rfl := Option.some.inj (hget.symm.trans hget')
        exact .inl rfl
      · exact absurd (Option.some.inj (hget.symm.trans hget')) (hnot name)
  · rw [hassociation]
    refine iff_of_false (by simp [pure, Except.pure]) ?_
    rintro (⟨v, hget, htrue, _⟩ | ⟨name, hget, hname, _⟩)
    · rw [hnone v hget] at htrue
      cases htrue
    · have htrue := hnone _ hget
      simp [Json.isTrue, hname] at htrue

/-- What the outcome of detection depends on, in the order in which it is asked for. -/
theorem detectionStumbles_iff {file : Text} : DetectionStumbles host s file e ↔
    (∃ a, Store.NoPath file a ∧ e = .access a) ∨
    ∃ bytes, s.read file = .ok bytes ∧
      ((∃ flaw, Utf8.decode bytes = .error flaw ∧ e = .undecodable flaw) ∨
        ∃ text, Utf8.decode bytes = .ok text ∧
          ((∃ digits, Json.read (Text.universal text) = .error (.tooLong digits) ∧
            e = .document (.tooLong digits)) ∨
          (∃ container, Json.read (Text.universal text) = .error (.tooDeep container) ∧
            e = .document (.tooDeep container)) ∨
          ∃ document, Json.read (Text.universal text) = .ok document ∧
            installOf host s document = .error e)) := by
  simp only [installOf_eq_error_iff]
  constructor
  · intro h
    cases h with
    | noPath h => exact .inl ⟨_, h, rfl⟩
    | undecodable hread h => exact .inr ⟨_, hread, .inl ⟨_, h, rfl⟩⟩
    | tooLong hread htext h => exact .inr ⟨_, hread, .inr ⟨_, htext, .inl ⟨_, h, rfl⟩⟩⟩
    | tooDeep hread htext h => exact .inr ⟨_, hread, .inr ⟨_, htext, .inr (.inl ⟨_, h, rfl⟩)⟩⟩
    | association hdocument hget htrue hnot =>
      obtain ⟨bytes, text, hread, htext, h⟩ := hdocument
      exact .inr ⟨_, hread, .inr ⟨_, htext, .inr (.inr ⟨_, h, .inl ⟨_, hget, htrue, hnot, rfl⟩⟩)⟩⟩
    | install hdocument hget hname hinstall =>
      obtain ⟨bytes, text, hread, htext, h⟩ := hdocument
      exact .inr ⟨_, hread, .inr ⟨_, htext, .inr (.inr ⟨_, h, .inr ⟨_, hget, hname, hinstall⟩⟩)⟩⟩
  · rintro (⟨a, h, rfl⟩ | ⟨bytes, hread, ⟨flaw, h, rfl⟩ | ⟨text, htext, ⟨digits, h, rfl⟩ |
      ⟨container, h, rfl⟩ | ⟨document, h, ⟨v, hget, htrue, hnot, rfl⟩ |
        ⟨name, hget, hname, hinstall⟩⟩⟩⟩)
    · exact .noPath h
    · exact .undecodable hread h
    · exact .tooLong hread htext h
    · exact .tooDeep hread htext h
    · exact .association ⟨bytes, text, hread, htext, h⟩ hget htrue hnot
    · exact .install ⟨bytes, text, hread, htext, h⟩ hget hname hinstall

/-- The outcome of detection, and that it leaves the files. -/
theorem run_detect (host : Host) (file : Text) (w : World) :
    ((detect host file).run w).2.store = w.store ∧
      ∀ e, ((detect host file).run w).1 = .error e ↔
        DetectionStumbles host w.store (Path.ofText file).toText e := by
  simp only [detectionStumbles_iff, ← Store.refuses_read_iff (s := w.store)]
  unfold detect
  simp only [Task.run_bind, Task.run_store]
  cases hread : w.store.read (Path.ofText file).toText with
  | error a =>
    cases a with
    | file fe =>
      refine ⟨rfl, ?_⟩
      intro e
      refine iff_of_false (fun h => by cases h) ?_
      rintro (⟨a, h, _⟩ | ⟨_, h, _⟩)
      · exact Store.not_refuses_file fe h
      · cases h
    | _ =>
      refine ⟨rfl, ?_⟩
      intro e
      simp [Store.Refuses, eq_comm]
  | ok bytes =>
    have hrefuses : ∀ a, ¬ Store.Refuses (.ok bytes : Except AccessError (List UInt8)) a :=
      fun _ => Store.not_refuses_ok bytes
    cases htext : Utf8.decode bytes with
    | error flaw =>
      simp only [htext]
      refine ⟨rfl, ?_⟩
      intro e
      simp [hrefuses, htext, eq_comm]
    | ok text =>
      cases hjson : Json.read (Text.universal text) with
      | error flaw =>
        cases flaw with
        | malformed flaw line column offset =>
          simp only [htext, hjson]
          refine ⟨rfl, ?_⟩
          intro e
          refine iff_of_false (fun h => by cases h) ?_
          simp [hrefuses, htext, hjson]
        | _ =>
          simp only [htext, hjson]
          refine ⟨rfl, ?_⟩
          intro e
          simp [hrefuses, htext, hjson, eq_comm]
      | ok document =>
        simp only [htext, hjson]
        refine ⟨rfl, ?_⟩
        intro e
        show installOf host w.store document = .error e ↔ _
        simp [hrefuses, htext, hjson]

/-- Holds of a project file for which an engine is detected, and of the engine. -/
def Detects (host : Host) (s : Store) (file : Text) (found : Install) : Prop :=
  ∃ document name, Documents s file document ∧
    document.get? "EngineAssociation" = some (.string name) ∧ name ≠ [] ∧
    install host s name = .ok (some found)

theorem installOf_eq_some_iff {document : Json} {found : Install} :
    installOf host s document = .ok (some found) ↔
      ∃ name, document.get? "EngineAssociation" = some (.string name) ∧ name ≠ [] ∧
        install host s name = .ok (some found) := by
  unfold installOf
  rcases association_cases document with ⟨name, hname, hget, hassociation⟩ |
    ⟨v, hget, _, hnot, hassociation⟩ | ⟨hnone, hassociation⟩
  · simp [hassociation, hget, hname, bind, Except.bind]
  · rw [hassociation]
    refine iff_of_false (fun h => by cases h) ?_
    rintro ⟨name, hget', _⟩
    exact hnot name (Option.some.inj (hget.symm.trans hget'))
  · rw [hassociation]
    refine iff_of_false (by simp [bind, Except.bind, pure, Except.pure]) ?_
    rintro ⟨name, hget, hname, _⟩
    have htrue := hnone _ hget
    simp [Json.isTrue, hname] at htrue

/-- **Which engine is detected.** -/
theorem run_detect_eq_some_iff {file : Text} {found : Install} :
    ((detect host file).run w).1 = .ok (some found) ↔
      Detects host w.store (Path.ofText file).toText found := by
  unfold detect Detects Documents
  simp only [Task.run_bind, Task.run_store]
  cases hread : w.store.read (Path.ofText file).toText with
  | error a => cases a <;> exact iff_of_false (fun h => by cases h) (by simp)
  | ok bytes =>
    cases htext : Utf8.decode bytes with
    | error flaw =>
      simp only [htext]
      exact iff_of_false (fun h => by cases h) (by simp [htext])
    | ok text =>
      cases hjson : Json.read (Text.universal text) with
      | error flaw =>
        cases flaw <;> simp only [htext, hjson] <;>
          exact iff_of_false (fun h => by cases h) (by simp [htext, hjson])
      | ok document =>
        simp only [htext, hjson]
        show installOf host w.store document = .ok (some found) ↔ _
        simp [installOf_eq_some_iff, htext, hjson]

end Engine

end ClangDb

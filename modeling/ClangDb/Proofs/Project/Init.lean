import ClangDb.Project.Init
import ClangDb.Proofs.Config.Reading
import ClangDb.Proofs.Engine.Detection
import ClangDb.Proofs.Json.Encodable
import ClangDb.Proofs.Project.Answer

/-! # How making a configuration ends

    A new configuration is made of what is on the disk: the project file, the
    engine and its version file.  Most of what can be amiss there is answered,
    and so are the failures of writing the file.  What is not answered is listed
    below, in the order in which it counts.

    Writing does not fail for what the configuration says, since every document
    has bytes.

    Key theorems:
    - `save_unanswered_iff`: which failures of writing are not answered,
    - `run_chooseEngine`, `run_chooseEngine_eq_some_iff`: where no engine can be chosen, and
      where one is,
    - `init_stumbles_iff`: where making a configuration ends with a fault,
    - `version_detect_init_error_iff`: that, telling the version of an engine, and detecting one.
-/

namespace ClangDb

/-! ### Writing -/

namespace Config

variable {c : Config} {project : Path} {overwrite : Bool} {w : World} {e : Fault}

/-- Holds of a fault of writing that is not answered: it says neither that the file could not be
    written nor that it is there. -/
def Unanswered (e : Fault) : Prop := (∀ fe, e ≠ .access (.file fe)) ∧ ∀ path, e ≠ .configExists path

theorem encode_toText (c : Config) : ∃ bytes, Utf8.encode c.toText = .ok bytes := by
  have hencodable : Utf8.Encodable c.toText :=
    (encodable_write _ _).append (Utf8.encodable_ofString "\n")
  exact ⟨_, Utf8.encode_eq_ok_iff.mpr ⟨hencodable, rfl⟩⟩

/-- **A failure of writing that is not answered** means that the path of the file is none. -/
theorem save_unanswered_iff : ((c.save project overwrite).run w).1 = .error e ∧ Unanswered e ↔
    ∃ a, Store.NoPath (pathIn project).toText a ∧ e = .access a := by
  obtain ⟨bytes, hbytes⟩ := encode_toText c
  unfold save
  simp only [Task.run_bind, run_isIn, hbytes]
  cases hprobe : w.store.probe (pathIn project).toText with
  | error fe =>
    constructor
    · rintro ⟨h, hfile, _⟩
      exact absurd (Except.error.inj h).symm (hfile fe)
    · rintro ⟨a, ha, _⟩
      rw [ha.probe] at hprobe
      cases hprobe
  | ok found =>
    cases hexists : found.isSome && !overwrite with
    | true =>
      simp only [hexists, if_true]
      constructor
      · rintro ⟨h, _, hexists⟩
        exact absurd (Except.error.inj h).symm (hexists _)
      · rintro ⟨a, ha, _⟩
        obtain rfl := Except.ok.inj (hprobe.symm.trans ha.probe)
        cases hexists
    | false =>
      have hrefuses : ∀ a, Store.Refuses (w.store.write (pathIn project).toText bytes) a ↔
          Store.NoPath (pathIn project).toText a := fun _ => Store.refuses_write_iff
      simp only [hexists, Bool.false_eq_true, if_false, Task.run_bind, Task.run_store, ← hrefuses]
      cases hwrite : w.store.write (pathIn project).toText bytes with
      | ok t =>
        refine iff_of_false (fun h => by cases h.1) ?_
        rintro ⟨a, ha, _⟩
        exact Store.not_refuses_ok t ha
      | error a =>
        constructor
        · rintro ⟨h, hfile, _⟩
          obtain rfl := Except.error.inj h
          exact ⟨a, ⟨rfl, fun fe hfe => hfile fe (congrArg Fault.access hfe)⟩, rfl⟩
        · rintro ⟨a', ha, rfl⟩
          obtain rfl := Except.error.inj ha.1
          refine ⟨rfl, ?_, by simp⟩
          intro fe hfe
          exact ha.2 fe (Fault.access.inj hfe)

end Config

namespace Project

variable {host : Host} {s : Store} {file : Path} {located : Located} {project engine : Json}
  {force : Bool} {w : World} {e : Fault}

/-! ### Choosing an engine -/

/-- Holds if no engine can be chosen, and of the fault: the version of the engine that is given
    cannot be told, or detection ends with a fault. -/
inductive ChoiceStumbles (host : Host) (s : Store) (file : Path) (engine : Json) :
    Fault → Prop where
  | version {bytes : List UInt8} {e : Fault} : engine.isTrue = true →
      s.read (Engine.versionFile (Path.normalize engine.plain)).toText = .ok bytes →
      Engine.VersionStumbles bytes e → ChoiceStumbles host s file engine e
  | detection {e : Fault} : engine.isTrue = false →
      Engine.DetectionStumbles host s (Path.ofText file.toText).toText e →
      ChoiceStumbles host s file engine e

/-- Holds if an engine is chosen. -/
inductive Chooses (host : Host) (s : Store) (file : Path) (engine : Json) : Prop where
  | given {version : Binary64} : engine.isTrue = true →
      Engine.version s (Path.normalize engine.plain) = .ok version → Chooses host s file engine
  | detected {found : Engine.Install} : engine.isTrue = false →
      Engine.Detects host s (Path.ofText file.toText).toText found → Chooses host s file engine

/-- **Where no engine can be chosen**; the files are left. -/
theorem run_chooseEngine (host : Host) (file : Path) (engine : Json) (w : World) :
    ((chooseEngine host file engine).run w).2.store = w.store ∧
      ∀ e, ((chooseEngine host file engine).run w).1 = .error e ↔
        ChoiceStumbles host w.store file engine e := by
  unfold chooseEngine
  cases htrue : engine.isTrue with
  | true =>
    simp only [if_true, Task.run_bind, Task.run_store, Task.run_ofExcept]
    cases hversion : Engine.version w.store (Path.normalize engine.plain) with
    | ok version =>
      refine ⟨rfl, ?_⟩
      intro e
      refine iff_of_false (fun h => by cases h) ?_
      intro h
      cases h with
      | version _ hread hstumbles =>
        rw [Engine.version_eq_error_iff.mpr ⟨_, hread, hstumbles⟩] at hversion
        cases hversion
      | detection hfalse _ => simp [htrue] at hfalse
    | error e' =>
      refine ⟨rfl, ?_⟩
      intro e
      constructor
      · intro h
        obtain rfl := Except.error.inj h
        obtain ⟨bytes, hread, hstumbles⟩ := Engine.version_eq_error_iff.mp hversion
        exact .version htrue hread hstumbles
      · intro h
        cases h with
        | version _ hread hstumbles =>
          have hfault := Engine.version_eq_error_iff.mpr ⟨_, hread, hstumbles⟩
          exact congrArg Except.error (Except.error.inj (hversion.symm.trans hfault))
        | detection hfalse _ => simp [htrue] at hfalse
  | false =>
    obtain ⟨hstore, hdetect⟩ := Engine.run_detect host file.toText w
    have hiff : ∀ e, ChoiceStumbles host w.store file engine e ↔
        ((Engine.detect host file.toText).run w).1 = .error e := by
      intro e
      rw [hdetect e]
      constructor
      · intro h
        cases h with
        | version htrue' _ _ => simp [htrue] at htrue'
        | detection _ h => exact h
      · intro h
        exact .detection htrue h
    simp only [Bool.false_eq_true, if_false, Task.run_bind, hiff]
    rw [← hstore]
    rcases (Engine.detect host file.toText).run w with ⟨e' | found, w₁⟩
    · exact ⟨rfl, fun e => by simp⟩
    · exact ⟨rfl, fun e => by simp⟩

theorem run_chooseEngine_eq_some_iff :
    (∃ chosen, ((chooseEngine host file engine).run w).1 = .ok (some chosen)) ↔
      Chooses host w.store file engine := by
  unfold chooseEngine
  cases htrue : engine.isTrue with
  | true =>
    simp only [if_true, Task.run_bind, Task.run_store, Task.run_ofExcept]
    cases hversion : Engine.version w.store (Path.normalize engine.plain) with
    | ok version => exact iff_of_true ⟨_, rfl⟩ (.given htrue hversion)
    | error e' =>
      refine iff_of_false (fun ⟨_, h⟩ => by cases h) ?_
      intro h
      cases h with
      | given _ h => simp [hversion] at h
      | detected hfalse _ => simp [htrue] at hfalse
  | false =>
    have hiff : Chooses host w.store file engine ↔
        ∃ found, ((Engine.detect host file.toText).run w).1 = .ok (some found) := by
      simp only [Engine.run_detect_eq_some_iff]
      constructor
      · intro h
        cases h with
        | given htrue' _ => simp [htrue] at htrue'
        | detected _ h => exact ⟨_, h⟩
      · rintro ⟨_, h⟩
        exact .detected htrue h
    simp only [Bool.false_eq_true, if_false, Task.run_bind, hiff]
    rcases (Engine.detect host file.toText).run w with ⟨e | found, w₁⟩
    · simp
    · cases found <;> simp

/-! ### Making a configuration -/

/-- Holds of a project for which making a configuration ends with a fault, and of the fault. -/
inductive InitStumbles (host : Host) (s : Store) (located : Located) (engine : Json)
    (force : Bool) : Fault → Prop where
  /-- The path of the configuration is too long to look at. -/
  | tooLong {fe : FileError} :
      s.find (Config.pathIn located.folder).toText = .error (.file fe) → fe.cause = .nameTooLong →
      InitStumbles host s located engine force (.access (.file fe))
  /-- No configuration stands in the way, and no engine can be chosen. -/
  | engine {found : Option Entry} {e : Fault} :
      s.probe (Config.pathIn located.folder).toText = .ok found → (found = none ∨ force = true) →
      ChoiceStumbles host s located.file engine e → InitStumbles host s located engine force e
  /-- The path of the configuration is none. -/
  | noPath {a : AccessError} : Chooses host s located.file engine →
      Store.NoPath (Config.pathIn located.folder).toText a →
      InitStumbles host s located engine force (.access a)

/-- What the end depends on, in the order in which it is asked for. -/
theorem initStumbles_iff : InitStumbles host s located engine force e ↔
    (∃ fe, s.probe (Config.pathIn located.folder).toText = .error fe ∧ e = .access (.file fe)) ∨
    ∃ found, s.probe (Config.pathIn located.folder).toText = .ok found ∧
      (found.isSome && !force) = false ∧
      (ChoiceStumbles host s located.file engine e ∨ Chooses host s located.file engine ∧
        ∃ a, Store.NoPath (Config.pathIn located.folder).toText a ∧ e = .access a) := by
  constructor
  · intro h
    cases h with
    | tooLong hfind hcause =>
      exact .inl ⟨_, Store.probe_eq_error_iff.mpr ⟨hfind, hcause⟩, rfl⟩
    | engine hprobe hfree h =>
      refine .inr ⟨_, hprobe, ?_, .inl h⟩
      rcases hfree with rfl | rfl <;> simp
    | noPath hchooses h => exact .inr ⟨none, h.probe, rfl, .inr ⟨hchooses, _, h, rfl⟩⟩
  · rintro (⟨fe, hprobe, rfl⟩ | ⟨found, hprobe, hfree, h | ⟨hchooses, a, h, rfl⟩⟩)
    · obtain ⟨hfind, hcause⟩ := Store.probe_eq_error_iff.mp hprobe
      exact .tooLong hfind hcause
    · refine .engine hprobe ?_ h
      cases found with
      | none => exact .inl rfl
      | some entry => exact .inr (by simpa using hfree)
    · exact .noPath hchooses h

/-- Where making a configuration of a project that is found ends with a fault. -/
theorem init_located_iff (hlocated : locate host w.store project = .ok located) :
    ((init host project engine force).run w).1 = .error e ↔
      InitStumbles host w.store located engine force e := by
  have hanswer : ((do Task.ofExcept (locate host (← Task.store) project) :
      Task Located).orFailure).run w = (.ok (.ok located), w) := by
    rw [Task.run_orFailure, Task.run_bind_ok (Task.run_store w), Task.run_ofExcept, hlocated]
  unfold init
  rw [Task.run_bind_ok hanswer, initStumbles_iff]
  simp only [Task.run_bind, Config.run_isIn]
  cases hprobe : w.store.probe (Config.pathIn located.folder).toText with
  | error fe =>
    constructor
    · intro h
      exact .inl ⟨fe, rfl, (Except.error.inj h).symm⟩
    · rintro (⟨fe', hfe, rfl⟩ | ⟨_, hfound, _⟩)
      · obtain rfl := Except.error.inj hfe
        rfl
      · cases hfound
  | ok found =>
    simp only [reduceCtorEq, false_and, exists_false, false_or, Except.ok.injEq, exists_eq_left']
    cases hexists : found.isSome && !force with
    | true =>
      simp only [if_true, Bool.true_eq_false, false_and, iff_false]
      intro h
      cases h
    | false =>
      simp only [Bool.false_eq_true, if_false, Task.run_bind, true_and]
      rw [← (run_chooseEngine host located.file engine w).2 e, ← run_chooseEngine_eq_some_iff]
      rcases (chooseEngine host located.file engine).run w with ⟨e' | chosen, w₁⟩
      · simp
      · cases chosen with
        | none =>
          refine iff_of_false (fun h => by cases h) ?_
          simp
        | some chosen =>
          -- a failure of writing is answered, unless the path of the file is none
          simp only [Task.run_bind, Task.run_outcome, reduceCtorEq, false_or, Except.ok.injEq,
            Option.some.injEq, exists_eq', true_and]
          generalize Config.initial located.name chosen.install.root chosen.install.version
            host.platform.name = config
          have hsave : ((config.save located.folder force).run w₁).1 = .error e ∧
              Config.Unanswered e ↔ ∃ a, Store.NoPath (Config.pathIn located.folder).toText a ∧
                e = .access a := Config.save_unanswered_iff
          rw [← hsave]
          rcases (config.save located.folder force).run w₁ with ⟨e' | written, w₂⟩
          · cases e' with
            | configExists existing =>
              refine iff_of_false (fun h => by cases h) ?_
              rintro ⟨h, _, hexists⟩
              exact hexists _ (Except.error.inj h).symm
            | access a =>
              cases a with
              | file fe =>
                refine iff_of_false (fun h => by cases h) ?_
                rintro ⟨h, hfile, _⟩
                exact hfile _ (Except.error.inj h).symm
              | _ => exact error_passed_iff (by simp [Config.Unanswered])
            | _ => exact error_passed_iff (by simp [Config.Unanswered])
          · exact iff_of_false (fun h => by cases h) (fun h => by cases h.1)

/-- Where making a configuration ends with a fault. -/
theorem init_stumbles_iff : ((init host project engine force).run w).1 = .error e ↔
    (locate host w.store project = .error e ∧ e.isInvalidValue = false) ∨
    ∃ located, locate host w.store project = .ok located ∧
      InitStumbles host w.store located engine force e := by
  cases hlocate : locate host w.store project with
  | ok located => simp [init_located_iff hlocate]
  | error e' =>
    have hfound : (do Task.ofExcept (locate host (← Task.store) project) : Task Located).run w =
        (.error e', w) := by
      rw [Task.run_bind_ok (Task.run_store w), Task.run_ofExcept, hlocate]
    unfold init
    rw [Task.orFailure_bind_error_iff fun _ => rfl, hfound]
    refine or_congr Iff.rfl (iff_of_false ?_ ?_)
    · rintro ⟨_, _, h, _⟩
      cases (Prod.mk.inj h).1
    · rintro ⟨_, h, _⟩
      cases h

/-- **What on the disk makes an operation end with a fault**: telling the version of an engine,
    detecting the engine of a project file, and making a configuration.  On all other files they
    end with a number, with an engine or none, and with an answer. -/
theorem version_detect_init_error_iff (host : Host) (w : World) (e : Fault) :
    (∀ root, Engine.version w.store root = .error e ↔
      ∃ bytes, w.store.read (Engine.versionFile root).toText = .ok bytes ∧
        Engine.VersionStumbles bytes e) ∧
    (∀ file, ((Engine.detect host file).run w).1 = .error e ↔
      Engine.DetectionStumbles host w.store (Path.ofText file).toText e) ∧
    ∀ project engine force, ((init host project engine force).run w).1 = .error e ↔
      (locate host w.store project = .error e ∧ e.isInvalidValue = false) ∨
      ∃ located, locate host w.store project = .ok located ∧
        InitStumbles host w.store located engine force e := by
  refine ⟨?_, ?_, ?_⟩
  · intro root
    exact Engine.version_eq_error_iff
  · intro file
    exact (Engine.run_detect host file w).2 e
  · intro project engine force
    exact init_stumbles_iff

/-- A project whose file holds a byte that begins no character. -/
def undecodableWorld : World :=
  ⟨⟨[], [(["p"], .folder), (["p", "G.uproject"], .file [0xff] none)]⟩, [], []⟩

def undecodableHost : Host := ⟨.linux, "/h", [], none, "/p"⟩

/-- Detection does not take the file for one that has no engine. -/
theorem version_detect_init_error_undecodable :
    ∃ flaw, ((init undecodableHost (.string "/p") .null false).run undecodableWorld).1 =
      .error (.undecodable flaw) := by
  have hlocate : locate undecodableHost undecodableWorld.store (.string "/p") =
      .ok ⟨Path.ofText "/p/G.uproject", Path.ofText "/p", "G"⟩ := rfl
  have hprobe : undecodableWorld.store.probe
      (Config.pathIn (Path.ofText "/p")).toText = .ok none := rfl
  have hread : undecodableWorld.store.read
      (Path.ofText (Path.ofText "/p/G.uproject").toText).toText = .ok [0xff] := rfl
  have hbad : (Utf8.decode [0xff]).isOk = false := by decide
  cases hdecode : Utf8.decode [0xff] with
  | ok text =>
    rw [hdecode] at hbad
    cases hbad
  | error flaw =>
    obtain ⟨_, _, hinit⟩ := version_detect_init_error_iff undecodableHost undecodableWorld
      (.undecodable flaw)
    refine ⟨flaw, (hinit (.string "/p") .null false).mpr (.inr ⟨_, hlocate, ?_⟩)⟩
    exact .engine hprobe (.inl rfl) (.detection rfl (.undecodable hread hdecode))

end Project

end ClangDb

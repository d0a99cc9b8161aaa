import ClangDb.Proofs.Config.Reading
import ClangDb.Proofs.Json.RoundTrip
import ClangDb.Proofs.Path.Separator
import ClangDb.Proofs.Text.Ascii

/-! # Configurations are kept by their file

    A configuration that is saved is loaded as it was, field by field.  What this
    asks of it is what a file can state: values of the types that are meant, a
    normalized engine directory, a number of the usual target that counts, and at
    least one target.  An empty comment is left out and comes back empty.

    That printing a finite number and reading it is the identity is taken as
    given, for the version of the configuration.

    Key theorems:
    - `Target.ofJson_toJson_iff`: which targets come back from their entry,
    - `Storable.lasts`: the document of a configuration is read back,
    - `storable_initial`: the configuration of a new project can be stored,
    - `load_save`: saving, then loading.
-/

namespace ClangDb

open Json (Unpaired)

/-! ### Targets -/

namespace Target

/-- Holds of a target whose values are texts that a file can state. -/
structure Storable (t : Target) : Prop where
  name : ∃ s, t.name = .string s ∧ s ≠ [] ∧ Unpaired s
  configuration : ∃ s, t.configuration = .string s ∧ Unpaired s
  extraFlags : ∃ s, t.extraFlags = .string s ∧ Unpaired s
  platform : ∃ s, t.platform = .string s ∧ Unpaired s

/-- **A target comes back from its entry** if its name counts, and its flags count or are an
    empty text. -/
theorem ofJson_toJson_iff (t : Target) : Target.ofJson t.toJson = .ok t ↔
    t.name.isTrue = true ∧ (t.extraFlags.isTrue = true ∨ t.extraFlags = .string []) := by
  have hread : Target.ofJson t.toJson =
      if (!t.name.isTrue) = true then .error (.config .noTargetName)
      else .ok { t with extraFlags := if t.extraFlags.isTrue then t.extraFlags else .string [] } := by
    rfl
  rw [hread]
  cases hname : t.name.isTrue with
  | false => simp
  | true =>
    obtain ⟨name, configuration, withEditor, extraFlags, platform⟩ := t
    cases hflags : extraFlags.isTrue with
    | false => simp [eq_comm]
    | true => simp

theorem Storable.ofJson_toJson {t : Target} (h : t.Storable) : Target.ofJson t.toJson = .ok t := by
  obtain ⟨name, hname, hne, _⟩ := h.name
  obtain ⟨flags, hflags, _⟩ := h.extraFlags
  refine (ofJson_toJson_iff t).mpr ⟨?_, ?_⟩
  · rw [hname]
    simpa [Json.isTrue] using hne
  · rw [hflags]
    cases flags with
    | nil => exact .inr rfl
    | cons c flags => exact .inl rfl

theorem Storable.lasts {t : Target} (h : t.Storable) (d : Nat) : Json.Lasts (d + 1) t.toJson := by
  obtain ⟨name, hname, _, hunpaired⟩ := h.name
  obtain ⟨configuration, hconfiguration, hunpaired₁⟩ := h.configuration
  obtain ⟨flags, hflags, hunpaired₂⟩ := h.extraFlags
  obtain ⟨platform, hplatform, hunpaired₃⟩ := h.platform
  refine Json.lasts_ofFields ?_ ?_
  · show (["TargetName", "Configuration", "withEditor", "UbtExtraFlags", "PlatformName"] :
      List Text).Nodup
    decide
  · intro field hfield
    simp only [List.mem_cons, List.not_mem_nil, or_false] at hfield
    rcases hfield with rfl | rfl | rfl | rfl | rfl
    · exact hname ▸ .string hunpaired
    · exact hconfiguration ▸ .string hunpaired₁
    · exact .bool
    · exact hflags ▸ .string hunpaired₂
    · exact hplatform ▸ .string hunpaired₃

/-- Entries come back one by one. -/
theorem mapM_ofJson {targets : List Target} (h : ∀ t ∈ targets, Target.ofJson t.toJson = .ok t) :
    (targets.map Target.toJson).mapM Target.ofJson = .ok targets := by
  induction targets with
  | nil => rfl
  | cons t targets ih =>
    have hrest := ih fun u hu => h u (List.mem_cons_of_mem t hu)
    rw [List.map_cons, List.mapM_cons, h t List.mem_cons_self, hrest]
    rfl

end Target

/-! ### Configurations -/

namespace Config

/-- Holds of a configuration that a file can state. -/
structure Storable (c : Config) : Prop where
  normal : Path.normalize c.engineDir = c.engineDir
  engineDir : Unpaired c.engineDir
  version : c.engineVersion.IsFinite
  counts : c.defaultTarget ≠ 0
  digits : (Text.ofNat c.defaultTarget.natAbs).length ≤ Number.digitLimit
  comment : ∃ s, c.comment = .string s ∧ Unpaired s
  hasTargets : c.targets ≠ []
  targets : ∀ t ∈ c.targets, t.Storable

/-- Holds of a number that is printed so that it is read back. -/
def ReadsBack (x : Binary64) : Prop := Number.fraction? (Json.numberLayout.number x) = some x

instance : DecidablePred ReadsBack := fun x =>
  inferInstanceAs (Decidable (Number.fraction? (Json.numberLayout.number x) = some x))

variable {c : Config}

theorem isPrinted_of_readsBack {x : Binary64} (hfinite : x.IsFinite) (h : ReadsBack x) :
    Json.IsPrinted x := by
  cases x with
  | nan => trivial
  | infinite negative => trivial
  | finite negative m q => exact ⟨hfinite, h⟩

/-- The members that every file states. -/
def stated (c : Config) : List (String × Json) := [
  ("EngineDir", .string c.engineDir), ("EngineVer", .number c.engineVersion),
  ("DefaultTarget", .int c.defaultTarget), ("Targets", .array (c.targets.map Target.toJson))]

/-- An empty comment is left out. -/
theorem toJson_cases {s : Text} (h : c.comment = .string s) :
    (s = [] ∧ c.toJson = .ofFields (("version", .string formatVersion) :: c.stated)) ∨
    (s ≠ [] ∧ c.toJson = .ofFields
      (("version", .string formatVersion) :: ("_comment", .string s) :: c.stated)) := by
  unfold toJson
  rw [h]
  cases s with
  | nil => exact .inl ⟨rfl, rfl⟩
  | cons x s => exact .inr ⟨List.cons_ne_nil x s, rfl⟩

theorem lasts_stated (h : c.Storable) (hversion : ReadsBack c.engineVersion) (d : Nat) :
    ∀ field ∈ c.stated, Json.Lasts (d + 2) field.2 := by
  intro field hfield
  simp only [stated, List.mem_cons, List.not_mem_nil, or_false] at hfield
  rcases hfield with rfl | rfl | rfl | rfl
  · exact .string h.engineDir
  · exact .number (isPrinted_of_readsBack h.version hversion)
  · exact .int h.digits
  · refine .array fun v hv => ?_
    obtain ⟨t, ht, rfl⟩ := List.mem_map.mp hv
    exact (h.targets t ht).lasts d

/-- The document of a configuration is read back. -/
theorem Storable.lasts (h : c.Storable) (hversion : ReadsBack c.engineVersion) (d : Nat) :
    Json.Lasts (d + 3) c.toJson := by
  have hformat : Json.Lasts (d + 2) (.string formatVersion) :=
    .string (Json.unpaired_ofString _)
  have hstated := lasts_stated h hversion d
  obtain ⟨s, hs, hunpaired⟩ := h.comment
  rcases toJson_cases hs with ⟨_, hjson⟩ | ⟨_, hjson⟩
  · rw [hjson]
    refine Json.lasts_ofFields ?_ ?_
    · show (["version", "EngineDir", "EngineVer", "DefaultTarget", "Targets"] : List Text).Nodup
      decide
    · intro field hfield
      rcases List.mem_cons.mp hfield with rfl | hfield
      · exact hformat
      · exact hstated field hfield
  · rw [hjson]
    refine Json.lasts_ofFields ?_ ?_
    · show (["version", "_comment", "EngineDir", "EngineVer", "DefaultTarget", "Targets"] :
        List Text).Nodup
      decide
    · intro field hfield
      rcases List.mem_cons.mp hfield with rfl | hfield
      · exact hformat
      · rcases List.mem_cons.mp hfield with rfl | hfield
        · exact .string hunpaired
        · exact hstated field hfield

/-- Members that state a configuration are read as it. -/
theorem ofMembers_of_stated (h : c.Storable) {members : List (Text × Json)}
    (hversion : Json.member? "version" members = some (.string formatVersion))
    (htargets : Json.member? "Targets" members = some (.array (c.targets.map Target.toJson)))
    (hengineVersion : Json.member? "EngineVer" members = some (.number c.engineVersion))
    (hengineDir : Json.member? "EngineDir" members = some (.string c.engineDir))
    (hnumber : Json.member? "DefaultTarget" members = some (.int c.defaultTarget))
    (hcomment : (Json.member? "_comment" members).getD (.string []) = c.comment) :
    ofMembers members = .ok c := by
  have hne : c.targets.map Target.toJson ≠ [] := by
    simpa using h.hasTargets
  -- the directory is normalized again, and an empty one does not count
  have hdir : readEngineDir (.string c.engineDir) = .ok c.engineDir := by
    cases hempty : c.engineDir with
    | nil => rfl
    | cons x s =>
      have hnormal := h.normal
      rw [hempty] at hnormal
      show Except.ok (Path.normalize (x :: s)) = .ok (x :: s)
      rw [hnormal]
  have hcounts : (Json.int c.defaultTarget).isTrue = true := by
    simpa [Json.isTrue] using h.counts
  have hread : readNumber (.int c.defaultTarget) = .ok c.defaultTarget := by
    rw [readNumber, if_pos hcounts]
    rfl
  have hentries : (c.targets.map Target.toJson).mapM Target.ofJson = .ok c.targets := by
    apply Target.mapM_ofJson
    intro t ht
    exact (h.targets t ht).ofJson_toJson
  rw [ofMembers_of_offers ⟨hversion, htargets, hne⟩, ofEntries, statedVersion, statedEngineDir,
    statedNumber, hengineVersion, hengineDir, hnumber, hcomment]
  simp only [Option.getD_some, hdir, hread, hentries]
  rfl

/-- The document of a configuration is one object, and is read as the configuration. -/
theorem exists_members (h : c.Storable) :
    ∃ members, c.toJson = .object members ∧ ofMembers members = .ok c := by
  obtain ⟨s, hs, _⟩ := h.comment
  rcases toJson_cases hs with ⟨rfl, hjson⟩ | ⟨_, hjson⟩
  · exact ⟨_, hjson, ofMembers_of_stated h rfl rfl rfl rfl rfl hs.symm⟩
  · exact ⟨_, hjson, ofMembers_of_stated h rfl rfl rfl rfl rfl hs.symm⟩

/-- **The content of a file goes to bytes, and the bytes are read as the configuration.** -/
theorem exists_bytes (h : c.Storable) (hversion : ReadsBack c.engineVersion) (path : Text) :
    ∃ bytes, Utf8.encode c.toText = .ok bytes ∧ ofBytes path bytes = .ok c := by
  have hlasts : Json.Lasts Json.depthLimit c.toJson := h.lasts hversion _
  -- the file is ASCII, so its bytes are its code points, and it has no return to be replaced
  have hplain : Json.AllPlain c.toText :=
    (hlasts.allPlain (.indented 4) 0).append (by decide)
  have hascii : ∀ x ∈ c.toText, Utf8.IsAscii x := by
    intro x hx
    rcases hplain x hx with ⟨_, hle⟩ | rfl
    · show x.toNat < 0x80
      omega
    · show (0x0a : Nat) < 0x80
      decide
  have hreturn : .char '\r' ∉ c.toText := by
    intro hmem
    rcases hplain _ hmem with ⟨hle, _⟩ | heq
    · exact absurd hle (by decide)
    · exact absurd heq (by decide)
  obtain ⟨bytes, hencode, hdecode⟩ := Utf8.exists_encode hascii
  have hread : Json.read c.toText = .ok c.toJson :=
    Json.read_write (.indented 4) hlasts (by decide)
  obtain ⟨members, hjson, hmembers⟩ := exists_members h
  refine ⟨bytes, hencode, ?_⟩
  unfold ofBytes
  rw [hdecode]
  simp only [Except.mapError, bind, Except.bind]
  rw [Text.universal_eq_self hreturn, hread, hjson]
  exact hmembers

/-! ### Files -/

/-- A path that can be written to can be looked at. -/
theorem exists_probe {s : Store} {path : Text} {p : Place} (h : s.writable path = .ok p) :
    ∃ found, s.probe path = .ok found := by
  obtain ⟨hneeds, hlocate, _⟩ := Store.writable_spec h
  unfold Store.probe Store.find
  rw [hlocate]
  simp only [bind, Except.bind, hneeds, Bool.false_eq_true, if_false]
  cases s.entry? p with
  | none => exact ⟨none, rfl⟩
  | some entry =>
    cases entry with
    | file bytes program => exact ⟨_, rfl⟩
    | folder => exact ⟨_, rfl⟩

/-- What saving does where the file may be written: it puts the content there. -/
theorem run_save {project : Path} {w : World} {p : Place} {bytes : List UInt8}
    (hwritable : w.store.writable (pathIn project).toText = .ok p)
    (hencode : Utf8.encode c.toText = .ok bytes) :
    (c.save project true).run w =
      (.ok (pathIn project), { w with store := w.store.put p (.file bytes none) }) := by
  obtain ⟨found, hfound⟩ := exists_probe hwritable
  have hwrite : w.store.write (pathIn project).toText bytes =
      .ok (w.store.put p (.file bytes none)) := by
    rw [Store.write, hwritable]
    rfl
  have hisIn : (isIn project).run w = (.ok found.isSome, w) := by
    rw [run_isIn, hfound]
  unfold save
  rw [Task.run_bind_ok hisIn]
  simp only [Bool.not_true, Bool.and_false, Bool.false_eq_true, if_false, hencode, Task.run_bind,
    Task.run_pure, Task.run_store, hwrite, Task.run_setStore]

/-- What is written is in the store. -/
theorem inStore_put {s : Store} {path : Text} {p : Place} {bytes : List UInt8}
    (hwritable : s.writable path = .ok p) (hbytes : ofBytes path bytes = .ok c) :
    inStore (s.put p (.file bytes none)) path = .ok c := by
  have hwrite : s.write path bytes = .ok (s.put p (.file bytes none)) := by
    rw [Store.write, hwritable]
    rfl
  have hread := Store.read_write hwrite
  obtain ⟨program, hfind⟩ := Store.read_eq_ok_iff.mp hread
  unfold inStore Store.probe
  rw [hfind, hread]
  exact hbytes

/-! ### New projects -/

theorem unpaired_collapse {s : Text} (h : Unpaired s) : Unpaired (Path.collapse s) := by
  induction s with
  | nil => exact h
  | cons x s ih =>
    obtain ⟨hhead, htail⟩ := List.isChain_cons.mp h
    rw [Path.collapse_cons]
    split
    · exact ih htail
    · refine List.isChain_cons.mpr ⟨?_, ih htail⟩
      rw [Path.head?_collapse]
      exact hhead

theorem unpaired_normalize {s : Text} (h : Unpaired s) : Unpaired (Path.normalize s) := by
  apply unpaired_collapse
  show (s.map fun c => if c = .char '\\' then .char '/' else c).IsChain _
  rw [List.isChain_map]
  apply h.imp
  intro a b hapart hboth
  obtain ⟨hhigh, hlow⟩ := hboth
  -- no half of a pair is a slash, so both stood there before
  split at hhigh
  · exact Json.not_isHigh_char _ hhigh
  · split at hlow
    · exact Json.not_isLow_char _ hlow
    · exact hapart ⟨hhigh, hlow⟩

/-- **The configuration of a new project can be stored.** -/
theorem storable_initial {name engineDir platform : Text} {version : Binary64} (hname : name ≠ [])
    (hunpaired : Unpaired name) (hdir : Unpaired engineDir) (hversion : version.IsFinite)
    (hplatform : Unpaired platform) : (initial name engineDir version platform).Storable := by
  constructor
  · exact Path.normalize_eq_self (Path.isNormal_normalize engineDir)
  · exact unpaired_normalize hdir
  · exact hversion
  · show (1 : Int) ≠ 0
    decide
  · show (Text.ofNat 1).length ≤ Number.digitLimit
    decide
  · exact ⟨_, rfl, Json.unpaired_ofString _⟩
  · exact List.cons_ne_nil _ _
  · intro t ht
    obtain ⟨configuration, hmem, rfl⟩ := List.mem_map.mp ht
    have hconfiguration : Unpaired configuration := by
      simp only [usualConfigurations, List.mem_cons, List.not_mem_nil, or_false] at hmem
      rcases hmem with rfl | rfl | rfl <;> exact Json.unpaired_ofString _
    exact ⟨⟨name, rfl, hname, hunpaired⟩, ⟨configuration, rfl, hconfiguration⟩,
      ⟨[], rfl, .nil⟩, ⟨platform, rfl, hplatform⟩⟩

/-! ### Saving and loading -/

/-- **A configuration that is saved is loaded as it was**, its targets come back from their
    entries, and the configuration of a new project is one that can be saved. -/
theorem load_save :
    (∀ (c : Config) (project : Path) (w : World), c.Storable → ReadsBack c.engineVersion →
      (∃ p, w.store.writable (pathIn project).toText = .ok p) →
      ∃ w₁ w₂, (c.save project true).run w = (.ok (pathIn project), w₁) ∧
        (load project).run w₁ = (.ok c, w₂)) ∧
    (∀ t : Target, (t.Storable → Target.ofJson t.toJson = .ok t) ∧
      (Target.ofJson t.toJson = .ok t ↔
        t.name.isTrue = true ∧ (t.extraFlags.isTrue = true ∨ t.extraFlags = .string []))) ∧
    ∀ (name engineDir platform : Text) (version : Binary64), name ≠ [] → Unpaired name →
      Unpaired engineDir → version.IsFinite → Unpaired platform →
      (initial name engineDir version platform).Storable := by
  refine ⟨?_, fun t => ⟨Target.Storable.ofJson_toJson, t.ofJson_toJson_iff⟩, ?_⟩
  · intro c project w h hversion hwritable
    obtain ⟨p, hwritable⟩ := hwritable
    obtain ⟨bytes, hencode, hbytes⟩ := exists_bytes h hversion (pathIn project).toText
    have hload := run_load project { w with store := w.store.put p (.file bytes none) }
    rw [inStore_put hwritable hbytes] at hload
    exact ⟨_, _, run_save hwritable hencode, hload⟩
  · intro name engineDir platform version hname hunpaired hdir hversion hplatform
    exact storable_initial hname hunpaired hdir hversion hplatform

/-- A target with a control character, a character beyond the basic plane and no flags. -/
def sampleTarget : Target :=
  ⟨.string "Game", .string "\x01\\🎮", false, .string [], .string "Linux"⟩

/-- A configuration without a comment. -/
def sample : Config :=
  ⟨"/opt/engine", .finite false 5967269506265907 (-50), -7, [sampleTarget], .string []⟩

/-- A world with the folder of a project and nothing else. -/
def sampleWorld : World := ⟨⟨[], [(["p"], .folder)]⟩, [], []⟩

theorem storable_sampleTarget : sampleTarget.Storable :=
  ⟨⟨_, rfl, List.cons_ne_nil _ _, Json.unpaired_ofString "Game"⟩,
    ⟨_, rfl, Json.unpaired_ofString "\x01\\🎮"⟩, ⟨[], rfl, .nil⟩,
    ⟨_, rfl, Json.unpaired_ofString "Linux"⟩⟩

theorem storable_sample : sample.Storable := by
  constructor
  · decide
  · exact Json.unpaired_ofString "/opt/engine"
  · decide
  · decide
  · decide
  · exact ⟨[], rfl, .nil⟩
  · exact List.cons_ne_nil _ _
  · intro t ht
    rw [List.mem_singleton.mp ht]
    exact storable_sampleTarget

theorem load_save_sample :
    (sample.Storable ∧ ReadsBack sample.engineVersion ∧
      sampleWorld.store.writable (pathIn ⟨.root, ["p"]⟩).toText = .ok ["p", "UnrealNvim.json"]) ∧
    (∃ w₁ w₂, (sample.save ⟨.root, ["p"]⟩ true).run sampleWorld =
        (.ok (pathIn ⟨.root, ["p"]⟩), w₁) ∧
      (load ⟨.root, ["p"]⟩).run w₁ = (.ok sample, w₂)) ∧
    (sampleTarget.Storable ∧ Target.ofJson sampleTarget.toJson = .ok sampleTarget) ∧
    (initial "Game" "C:\\engine\\" sample.engineVersion "Win64").Storable := by
  obtain ⟨hrun, htarget, hinitial⟩ := load_save
  have hversion : ReadsBack sample.engineVersion := by decide +kernel
  have hwritable : sampleWorld.store.writable (pathIn ⟨.root, ["p"]⟩).toText =
      .ok ["p", "UnrealNvim.json"] := by
    rfl
  have hnew : (initial "Game" "C:\\engine\\" sample.engineVersion "Win64").Storable := by
    apply hinitial
    · exact List.cons_ne_nil _ _
    · exact Json.unpaired_ofString "Game"
    · exact Json.unpaired_ofString "C:\\engine\\"
    · exact storable_sample.version
    · exact Json.unpaired_ofString "Win64"
  exact ⟨⟨storable_sample, hversion, hwritable⟩,
    hrun sample _ sampleWorld storable_sample hversion ⟨_, hwritable⟩,
    ⟨storable_sampleTarget, (htarget sampleTarget).1 storable_sampleTarget⟩, hnew⟩

end Config

end ClangDb

import ClangDb.Proofs.Database.InlineWords
import ClangDb.Proofs.Database.Jobs
import ClangDb.Proofs.Database.Names
import ClangDb.Proofs.FileStore.Parts

/-! # Flat names

    The response file of an inline command is named after its source, and the name
    of a source is whatever the database says.  A flat name has neither separators
    nor the code points that a drive or the end of a value would be read from, and
    it is never a step to another folder.  So the job that a command line gets
    writes into the output folder, whatever source it is for.

    The separators of a path, single or doubled, become the slashes of `slashed`,
    of which the flat name is made.  A pair of backslashes is one separator, so this
    tells the ways to write a path apart only where two separators meet.

    Key theorems:
    - `isFileName_flatName`: what a flat name holds,
    - `scanLine_job_iff`: the job of an inline command,
    - `flatName_of_respelled`: a path with other separators,
    - `inlineJob_staysInFolder`: all of it.
-/

namespace ClangDb

namespace Database

variable {o : Options} {s : State} {raw path spelling : Text}

/-! ### What a flat name holds -/

/-- Holds of the name of a response file in a folder. -/
structure IsFileName (name : Text) : Prop where
  noSeparator : .char '/' ∉ name ∧ .char '\\' ∉ name
  noMark : .char ':' ∉ name ∧ .char '"' ∉ name ∧ .char ',' ∉ name
  notDots : name ≠ Text.ofString "." ∧ name ≠ Text.ofString ".."
  ends : name.endsWith ".rsp" = true

theorem length_flatName (file : Text) : 4 ≤ (flatName file).length := by
  rw [flatName, List.length_append]
  exact Nat.le_add_left 4 _

/-- **A flat name is one name**, and no step to another folder. -/
theorem isFileName_flatName (file : Text) : IsFileName (flatName file) where
  noSeparator := ⟨not_mem_flatName file, noBackslash_flatName file⟩
  noMark := ⟨not_mem_flatName_of_isDropped (by decide) file,
    not_mem_flatName_of_isDropped (by decide) file, not_mem_flatName_of_isDropped (by decide) file⟩
  notDots := by
    have hlength := length_flatName file
    constructor
    · intro h
      rw [h] at hlength
      exact absurd hlength (by decide)
    · intro h
      rw [h] at hlength
      exact absurd hlength (by decide)
  ends := List.isSuffixOf_iff_suffix.mpr ⟨_, rfl⟩

/-! ### The job of an inline command -/

/-- Holds of a line with a command that refers to no response file behind its compiler, if it
    has one. -/
def RefersToNone (dialect : Dialect) (raw : Text) : Prop :=
  isCommand raw = true ∧ ∀ c, Command.ofLine? dialect (Text.splitEnding raw).1 = some c →
    c.tail.contains reference = false

/-- **Which job an inline command has**: that of the file whose command is awaited, if it is not
    skipped and a compiler is found. -/
theorem scanLine_job_iff (h : RefersToNone o.dialect raw) (s : State) (job : Job) :
    (scanLine o s raw).job = some job ↔
      s.phase = .command ∧ o.skips s.currentFile = false ∧
        ∃ c, Command.ofLine? o.dialect (Text.splitEnding raw).1 = some c ∧
          job = o.inlineJob s.currentFile c.tail := by
  obtain ⟨hcommand, htail⟩ := h
  rw [scanLine_job]
  cases hphase : s.phase with
  | file =>
    rw [redirect?_of_file raw hphase]
    simp
  | command =>
    rw [redirect?_of_command hcommand hphase]
    cases hc : Command.ofLine? o.dialect (Text.splitEnding raw).1 with
    | none =>
      rw [redirectCommand, hc]
      simp
    | some c =>
      rw [redirectCommand_inline hc (htail c hc)]
      cases o.skips s.currentFile <;> simp [eq_comm]

/-- **The job of an inline command writes into the output folder.** -/
theorem place_of_inlineJob (hdir : o.outputDir ≠ []) {file tail : Text} {store : Store}
    {p : Place} (h : store.locate (o.inlineJob file tail).path = .ok p) :
    ∃ folder, store.locate o.outputDir = .ok folder ∧ store.entry? folder = some .folder ∧
      p = folder ++ [flatName file] := by
  have hlength := length_flatName file
  exact Store.locate_append_name hdir (not_mem_flatName file) (by omega) h

/-! ### Other separators -/

/-- Holds of a path in which no two separators meet. -/
def Apart (path : Text) : Prop :=
  path.IsChain fun c d => ¬ (Path.IsSeparator c ∧ Path.IsSeparator d)

/-- Holds of two paths that differ in their separators only. -/
def Respelled (path spelling : Text) : Prop :=
  spelling.substitute '\\' '/' = path.substitute '\\' '/'

instance (path : Text) : Decidable (Apart path) :=
  inferInstanceAs (Decidable (path.IsChain fun c d => ¬ (Path.IsSeparator c ∧ Path.IsSeparator d)))

instance (path spelling : Text) : Decidable (Respelled path spelling) :=
  inferInstanceAs (Decidable (spelling.substitute '\\' '/' = path.substitute '\\' '/'))

/-- A flat name is made from the path with slashes. -/
theorem flatName_eq (file : Text) :
    flatName file = Text.substitute ((slashed file).filter (!isDropped ·)) '/' '_' ++ ".rsp" := by
  have hkept : ((fun c => !isDropped c) ∘ fun c : CodePoint =>
      if c = .char '\\' then .char '/' else c) = fun c => !isDropped c := by
    funext c
    show (!isDropped (if c = .char '\\' then .char '/' else c)) = !isDropped c
    split
    · next hc => rw [hc]; rfl
    · rfl
  unfold flatName slashed Text.substitute
  rw [List.filter_map, hkept]

/-- Paths that are one with slashes have one flat name. -/
theorem flatName_congr {file other : Text} (h : slashed file = slashed other) :
    flatName file = flatName other := by
  rw [flatName_eq, flatName_eq, h]

/-- Doubled backslashes become slashes one by one. -/
theorem slashed_doubled (path : Text) :
    slashed (Path.doubled path) = path.substitute '\\' '/' := by
  induction path with
  | nil => rfl
  | cons c path ih =>
    rw [Path.doubled_cons]
    split
    · next hc =>
      rw [slashed_pair, ih, hc]
      rfl
    · next hc =>
      rw [slashed_plain hc, ih]
      exact congrArg (· :: _) (if_neg hc).symm

/-- So do single ones, where no two meet. -/
theorem slashed_of_apart (h : Apart path) : slashed path = path.substitute '\\' '/' := by
  induction path with
  | nil => rfl
  | cons c path ih =>
    obtain ⟨hhead, htail⟩ := List.isChain_cons.mp h
    have ih := ih htail
    by_cases hc : c = .char '\\'
    · subst hc
      cases path with
      | nil => rfl
      | cons d path =>
        -- what follows is no backslash, so the two make no pair
        have hd : d ≠ .char '\\' := fun hd => hhead d rfl ⟨.inr rfl, .inr hd⟩
        rw [slashed_escape hd, ← slashed_plain hd, ih]
        rfl
    · rw [slashed_plain hc, ih]
      exact congrArg (· :: _) (if_neg hc).symm

theorem isSeparator_slash_iff (c : CodePoint) :
    Path.IsSeparator (if c = .char '\\' then .char '/' else c) ↔ Path.IsSeparator c := by
  split
  · next hc =>
    rw [hc]
    decide
  · rfl

/-- Whether separators meet does not depend on which they are. -/
theorem apart_substitute : Apart (path.substitute '\\' '/') ↔ Apart path := by
  unfold Apart Text.substitute
  rw [List.isChain_map]
  simp only [isSeparator_slash_iff]

/-- **A path in which no two separators meet has one flat name**, whether they are slashes, single
    backslashes or doubled ones. -/
theorem flatName_of_respelled (hpath : Apart path) (h : Respelled path spelling) :
    flatName spelling = flatName path ∧ flatName (Path.doubled spelling) = flatName path := by
  have hspelling : Apart spelling := by
    rw [← apart_substitute, h, apart_substitute]
    exact hpath
  constructor
  · apply flatName_congr
    rw [slashed_of_apart hspelling, slashed_of_apart hpath, h]
  · apply flatName_congr
    rw [slashed_doubled, slashed_of_apart hpath, h]

-- where two separators meet the ways to write a path differ
example : flatName "a\\\\b" = Text.ofString "a_b.rsp" ∧
    flatName "a//b" = Text.ofString "a__b.rsp" := by
  decide

/-! ### All of it -/

/-- **The job of an inline command stays in the output folder.**  Its path is the path of the
    folder, a slash and a name without separators, colons, quotes and commas, which is neither of
    the two dotted names and ends in `.rsp`; whatever the job writes, it writes to a file of this
    name in the folder that the path of the folder leads to.  There is a job exactly if the command
    is awaited, its file is not skipped and a compiler is found.  The name is the same for all ways
    to write the path of the source in which no two separators meet, unless they are the two
    backslashes that stand for one. -/
theorem inlineJob_staysInFolder (o : Options) (s : State) (h : RefersToNone o.dialect raw) :
    (∀ job, (scanLine o s raw).job = some job →
      job.path = o.outputDir ++ "/" ++ flatName s.currentFile ∧
        IsFileName (flatName s.currentFile) ∧
        ∀ store after : Store, o.outputDir ≠ [] → job.run store = .written after →
          ∃ folder bytes, store.locate o.outputDir = .ok folder ∧
            store.entry? folder = some .folder ∧
            after = store.put (folder ++ [flatName s.currentFile]) (.file bytes none)) ∧
    (∀ job, (scanLine o s raw).job = some job ↔
      s.phase = .command ∧ o.skips s.currentFile = false ∧
        ∃ c, Command.ofLine? o.dialect (Text.splitEnding raw).1 = some c ∧
          job = o.inlineJob s.currentFile c.tail) ∧
    ∀ path spelling, Apart path → Respelled path spelling →
      flatName spelling = flatName path ∧ flatName (Path.doubled spelling) = flatName path := by
  refine ⟨?_, scanLine_job_iff h s, fun path spelling => flatName_of_respelled⟩
  intro job hjob
  obtain ⟨_, _, c, _, rfl⟩ := (scanLine_job_iff h s job).mp hjob
  refine ⟨rfl, isFileName_flatName s.currentFile, ?_⟩
  intro store after hdir hrun
  obtain ⟨p, bytes, hdoes, rfl⟩ := Job.run_eq_written_iff.mp hrun
  obtain ⟨folder, hfolder, hentry, rfl⟩ := place_of_inlineJob hdir hdoes.place.2.1
  exact ⟨folder, bytes, hfolder, hentry, rfl⟩

/-- The command of a source whose path would leave any folder. -/
def hostileLine : Text := "\"command\": \"\\\"clang++\\\" -c\",\n"

/-- The path of the source, which the database writes with doubled backslashes and a quote. -/
def hostileState : State := ⟨.command, "/..\\\\..\\\"C:,x"⟩

/-- A store with the output folder. -/
def hostileStore : Store := ⟨[], [(["out"], .folder)]⟩

theorem inlineJob_staysInFolder_hostile :
    ∃ job after folder bytes, (scanLine engineOptions hostileState hostileLine).job = some job ∧
      job.path = Text.ofString "out/_.._.._Cx.rsp" ∧
      IsFileName (flatName hostileState.currentFile) ∧
      job.run hostileStore = .written after ∧
      hostileStore.locate engineOptions.outputDir = .ok folder ∧
      after = hostileStore.put (folder ++ [flatName hostileState.currentFile]) (.file bytes none) ∧
      flatName "..\\b/c" = flatName "../b/c" ∧ flatName "..\\\\b/c" = flatName "../b/c" := by
  have hcommand : Command.ofLine? engineOptions.dialect (Text.splitEnding hostileLine).1 =
      some ⟨[], "\"\\\"clang++\\\"", " -c\","⟩ := by
    decide +kernel
  have hreference : RefersToNone engineOptions.dialect hostileLine := by
    refine ⟨by decide +kernel, fun c hc => ?_⟩
    obtain rfl := Option.some.inj (hc.symm.trans hcommand)
    decide +kernel
  have hspelled : Apart "../b/c" ∧ Respelled "../b/c" "..\\b/c" := ⟨by decide, by decide⟩
  obtain ⟨hpath, hjob, hname⟩ :=
    inlineJob_staysInFolder engineOptions hostileState hreference
  have hscheduled := (hjob _).mpr ⟨rfl, by decide +kernel, _, hcommand, rfl⟩
  obtain ⟨_, hfile, hplace⟩ := hpath _ hscheduled
  have hwritten : (Job.run hostileStore
      (engineOptions.inlineJob hostileState.currentFile " -c\",")) matches .written _ := by
    decide +kernel
  split at hwritten
  · next after hrun =>
    obtain ⟨folder, bytes, hfolder, _, hafter⟩ := hplace hostileStore after (by decide) hrun
    obtain ⟨hsingle, hdouble⟩ := hname _ _ hspelled.1 hspelled.2
    exact ⟨_, after, folder, bytes, hscheduled, by decide +kernel, hfile, hrun, hfolder, hafter,
      hsingle, hdouble⟩
  · cases hwritten

end Database

end ClangDb

import ClangDb.Proofs.Database.Pass
import ClangDb.Proofs.Database.Positions
import ClangDb.Proofs.Database.Records
import ClangDb.Proofs.Database.Schedule
import ClangDb.Proofs.Path.Separator

/-! # Sources of the engine

    The engine directory and the sources of a database are written in different
    ways.  The directory is given as a path, is normalized and loses the slashes at
    its end; a source is named by a JSON string, which doubles its backslashes.
    However the two are written, a path that the directory and a separator begin is
    under the engine, and its doubled form is under the same roots as itself.

    So a pass that skips the engine schedules no job for such a source.  The command
    of its entry is the next line with a command after the line that names it.  This
    line is rewritten or passed through as it would be for any other source.

    Key theorems:
    - `fileOn?_of_namesDoubled`: what a line with a doubled path names,
    - `isUnderRoot_of_below`: what the engine directory begins,
    - `scanLine_of_skips`: the command of a source that is skipped,
    - `scan_of_engineSource`: what a pass does with an entry of the engine.
-/

namespace ClangDb

namespace Database

open Json

variable {o : Options} {s : State} {raw path file : Text}

/-! ### Lines that name a path -/

/-- A path without quotes, its backslashes doubled, is the body of a literal. -/
theorem isBody_doubled (h : .char '"' ∉ path) : IsBody (Path.doubled path) := by
  induction path with
  | nil => exact .nil
  | cons c path ih =>
    rw [List.mem_cons, not_or] at h
    rw [Path.doubled_cons]
    split
    · exact .escape (ih h.2)
    · next hslash => exact .plain (Ne.symm h.1) hslash (ih h.2)

/-- Holds of a line without a command whose first `"file":` key has a path for its value, with
    every backslash doubled. -/
def NamesDoubled (raw path : Text) : Prop :=
  isCommand raw = false ∧ ∃ t pad more, FirstBefore fileKey t ∧
    (∀ c ∈ pad, c = .char ' ' ∨ c = .char '\t') ∧
    (Text.splitEnding raw).1 = t ++ (fileKey ++ (pad ++ quoted (Path.doubled path) more))

/-- Such a line names the doubled path. -/
theorem fileOn?_of_namesDoubled (hpath : .char '"' ∉ path) (h : NamesDoubled raw path) :
    fileOn? raw = some (Path.doubled path) := by
  obtain ⟨hcommand, t, pad, more, ht, hpad, hraw⟩ := h
  have hcommand : ¬ isCommand raw = true := by simp [hcommand]
  rw [fileOn?, if_neg hcommand, hraw]
  exact fileValue?_append ht ⟨pad, more, rfl, hpad, isBody_doubled hpath⟩

/-! ### Paths that the engine directory begins -/

/-- Holds of a path that a folder and one separator or more begin. -/
def Below (folder path : Text) : Prop :=
  ∃ seps rest, path = folder ++ (seps ++ rest) ∧ seps ≠ [] ∧ ∀ c ∈ seps, Path.IsSeparator c

/-- **A path that the engine directory begins is under it**, with its backslashes doubled or not. -/
theorem isUnderRoot_of_below {r : Request} (hengine : r.engineDir.trim.isEmpty = false)
    (h : Below r.engineDir path) :
    Path.isUnderRoot path r.options.engineDir = true ∧
      Path.isUnderRoot (Path.doubled path) r.options.engineDir = true := by
  have hne : r.engineDir ≠ [] := by
    intro hnil
    rw [hnil] at hengine
    cases hengine
  rw [Path.isUnderRoot_doubled, and_self]
  obtain ⟨seps, rest, rfl, hseps, hall⟩ := h
  cases seps with
  | nil => exact absurd rfl hseps
  | cons c seps =>
    -- the first separator decides, and the others are part of the rest
    exact Path.isUnderRoot_append hne (hall c List.mem_cons_self) (seps ++ rest)

/-! ### Commands of sources that are skipped -/

/-- What a command line of a file is replaced by: itself, if it is passed through, or its new
    content with its own ending. -/
inductive Replaces (o : Options) (file raw : Text) : Text → Prop where
  | passed : redirect? o ⟨.command, file⟩ raw = none → Replaces o file raw raw
  | rewritten {line : Text} {job : Job} :
      redirectCommand o file (Text.splitEnding raw).1 = .redirected line job →
      Replaces o file raw (line ++ (Text.splitEnding raw).2)

/-- **The command of a source that is skipped has no job**, and its line is replaced as that of
    any other. -/
theorem scanLine_of_skips (hskips : o.skips file = true) (raw : Text) :
    (scanLine o ⟨.command, file⟩ raw).job = none ∧
      Replaces o file raw (scanLine o ⟨.command, file⟩ raw).line := by
  rw [scanLine_job, scanLine_line]
  cases hredirect : redirect? o ⟨.command, file⟩ raw with
  | none => exact ⟨rfl, .passed hredirect⟩
  | some found =>
    obtain ⟨line, job⟩ := found
    exact ⟨if_pos hskips, .rewritten (redirect?_spec hredirect).2.2⟩

/-- No job is scheduled for a source that is skipped. -/
theorem sourceFile_ne_of_skips {lines : List Text} {job : Job} (hskips : o.skips file = true)
    (h : job ∈ (scanLines o s lines).jobs) : job.sourceFile ≠ file := by
  rw [jobs_scanLines] at h
  have hserves := (List.mem_filter.mp h).2
  rintro rfl
  rw [Options.serves, hskips] at hserves
  cases hserves

/-! ### Entries -/

/-- Holds of lines that hold an entry: one that names a file, passive lines, and the command that
    is awaited then, between lines of other entries. -/
structure HoldsEntry (lines before : List Text) (name : Text) (between : List Text)
    (command : Text) (after : List Text) : Prop where
  lines_eq : lines = (before ++ name :: between) ++ command :: after
  passive : ∀ x ∈ between, Passive x
  isCommand : isCommand command = true

variable {lines before between after : List Text} {name command : Text}

/-- After the line that names the file its command is awaited. -/
theorem HoldsEntry.stateAfter_eq (h : HoldsEntry lines before name between command after)
    (hname : fileOn? name = some file) (s : State) :
    stateAfter s (before ++ name :: between) = ⟨.command, file⟩ := by
  rw [stateAfter_append, stateAfter_cons, nextState_of_file hname, stateAfter_of_passive h.passive]

/-- A scan does its lines in front, the command and its lines behind. -/
theorem HoldsEntry.scanLines_eq (h : HoldsEntry lines before name between command after)
    (hname : fileOn? name = some file) (o : Options) (s : State) :
    (scanLines o s lines).lines = (scanLines o s (before ++ name :: between)).lines ++
        (scanLine o ⟨.command, file⟩ command).line :: (scanLines o ⟨.file, file⟩ after).lines ∧
      (scanLines o s lines).jobs = (scanLines o s (before ++ name :: between)).jobs ++
        ((scanLine o ⟨.command, file⟩ command).job.toList ++
          (scanLines o ⟨.file, file⟩ after).jobs) := by
  have hnext : nextState ⟨.command, file⟩ command = ⟨.file, file⟩ := if_pos h.isCommand
  rw [h.lines_eq, scanLines_append, h.stateAfter_eq hname, scanLines, scanLine_state, hnext]
  exact ⟨rfl, rfl⟩

/-- **A pass that skips the engine schedules no job for its sources.**  A path that the engine
    directory and separators begin is under the engine, whether its backslashes are doubled or
    not, and so it is for any path and any root.  When a line names it with its backslashes
    doubled, the command that is awaited then is rewritten or passed through, and the jobs of the
    pass are those of the lines before this command and behind it.  None of them is for this
    source. -/
theorem scan_of_engineSource {r : Request} (hengine : r.engineDir.trim.isEmpty = false)
    (hskip : r.skipEngine = true) (hpath : Below r.engineDir path) (hquote : .char '"' ∉ path) :
    (Path.isUnderRoot path r.options.engineDir = true ∧
      Path.isUnderRoot (Path.doubled path) r.options.engineDir = true) ∧
    (∀ other root, Path.isUnderRoot (Path.doubled other) root = Path.isUnderRoot other root) ∧
    (∀ bytes before name between command after,
      HoldsEntry (Text.rawLines (Utf8.decodeEscaping bytes)) before name between command after →
      NamesDoubled name path →
      (scanLine r.options (stateAfter .initial (before ++ name :: between)) command).job = none ∧
      ∃ line, Replaces r.options (Path.doubled path) command line ∧
        (r.scan bytes).lines =
          (scanLines r.options .initial (before ++ name :: between)).lines ++
            line :: (scanLines r.options ⟨.file, Path.doubled path⟩ after).lines ∧
        (r.scan bytes).jobs =
          (scanLines r.options .initial (before ++ name :: between)).jobs ++
            (scanLines r.options ⟨.file, Path.doubled path⟩ after).jobs) ∧
    ∀ bytes, ∀ job ∈ (r.scan bytes).jobs,
      job.sourceFile ≠ path ∧ job.sourceFile ≠ Path.doubled path := by
  have hunder := isUnderRoot_of_below hengine hpath
  have hskips : ∀ file, Path.isUnderRoot file r.options.engineDir = true →
      r.options.skips file = true := by
    intro file hfile
    show (Path.isUnderRoot file r.options.engineDir && r.skipEngine) = true
    rw [hfile, hskip]
    rfl
  refine ⟨hunder, Path.isUnderRoot_doubled, ?_, ?_⟩
  · intro bytes before name between command after hentry hname
    have hfile := fileOn?_of_namesDoubled hquote hname
    obtain ⟨hjob, hline⟩ := scanLine_of_skips (hskips _ hunder.2) command
    obtain ⟨hlines, hjobs⟩ := hentry.scanLines_eq hfile r.options .initial
    rw [hjob] at hjobs
    rw [hentry.stateAfter_eq hfile]
    exact ⟨hjob, _, hline, hlines, hjobs⟩
  · intro bytes job hjob
    exact ⟨sourceFile_ne_of_skips (hskips _ hunder.1) hjob,
      sourceFile_ne_of_skips (hskips _ hunder.2) hjob⟩

/-- A pass that skips the engine, whose directory has both separators and ends in two. -/
def mixedRequest : Request := ⟨"in", "out", "C:\\e//", true, .clang, false⟩

/-- A source of this engine behind more separators. -/
def mixedPath : Text := "C:\\e//\\/a.c"

/-- The line that names the source. -/
def mixedName : Text := "[\x7b\"file\": \"C:\\\\e//\\\\/a.c\",\n"

/-- A line between the source and its command. -/
def mixedBetween : Text := "\"directory\": \"d\",\n"

/-- The line of its command. -/
def mixedCommand : Text := "\"command\": \"\\\"clang++\\\" -c\"\x7d]\n"

/-- The new content of this line. -/
def mixedContent : Text :=
  "\"command\": \"\\\"clang++\\\" @\\\"out/C_e____a.c.rsp\\\" C:/e////a.c\","

theorem scan_of_engineSource_mixed :
    Below mixedRequest.engineDir mixedPath ∧
      (mixedRequest.scan (inputOf [mixedName, mixedBetween, mixedCommand])).jobs = [] ∧
      (mixedRequest.scan (inputOf [mixedName, mixedBetween, mixedCommand])).lines =
        [mixedName, mixedBetween, mixedContent ++ "\n"] := by
  have hpath : Below mixedRequest.engineDir mixedPath :=
    ⟨Text.ofString "\\/", Text.ofString "a.c", by decide, by decide, by decide⟩
  have hname : NamesDoubled mixedName mixedPath :=
    ⟨by decide +kernel, Text.ofString "[\x7b", Text.ofString " ", Text.ofString ",", by decide,
      by decide, by decide +kernel⟩
  have hpassive : Passive mixedBetween := ⟨by decide +kernel, by decide +kernel⟩
  have hentry : HoldsEntry (Text.rawLines (Utf8.decodeEscaping
      (inputOf [mixedName, mixedBetween, mixedCommand]))) [] mixedName [mixedBetween]
      mixedCommand [] :=
    ⟨by decide +kernel, fun x hx => List.mem_singleton.mp hx ▸ hpassive, by decide +kernel⟩
  have hredirect : redirectCommand mixedRequest.options (Path.doubled mixedPath)
      (Text.splitEnding mixedCommand).1 = .redirected mixedContent
        ⟨"out/C_e____a.c.rsp", "C:\\\\e//\\\\/a.c", .arguments " -c\"\x7d]"⟩ := by
    decide +kernel
  obtain ⟨_, _, hscan, _⟩ := scan_of_engineSource (r := mixedRequest) (by decide +kernel) rfl hpath
    (by decide +kernel)
  obtain ⟨_, line, hline, hlines, hjobs⟩ := hscan _ _ _ _ _ _ hentry hname
  have hbefore : scanLines mixedRequest.options .initial ([] ++ mixedName :: [mixedBetween]) =
      ⟨[mixedName, mixedBetween], [], []⟩ := by
    decide +kernel
  have hending : (Text.splitEnding mixedCommand).2 = "\n" := by decide +kernel
  rw [hbefore, scanLines] at hlines hjobs
  refine ⟨hpath, hjobs, ?_⟩
  rw [hlines]
  cases hline with
  | passed h =>
    rw [redirect?_of_command (by decide +kernel) rfl, hredirect] at h
    cases h
  | rewritten h =>
    obtain ⟨rfl, _⟩ := Outcome.redirected.inj (h.symm.trans hredirect)
    rw [hending]
    rfl

end Database

end ClangDb

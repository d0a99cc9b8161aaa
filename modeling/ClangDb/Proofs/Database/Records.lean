import ClangDb.Json.Reader
import ClangDb.Proofs.Database.Redirect
import ClangDb.Proofs.Database.Scan

/-! # Records of a database

    The scan knows nothing of braces: between two records it carries the phase
    and the last file over.  In a record each of whose commands comes after a
    file this does no harm, since the first line that looks at the state is
    preceded by one that sets it; so a scan of such records is the scans of each,
    one after another.  In general a command is redirected for the file of its
    own record if one was named, and otherwise for a file that an earlier record
    left behind.

    Key theorems:
    - `scanLines_eq_of_wellPaired`: the state carried over does no harm,
    - `scanLines_flatten`: the scan of records,
    - `IsRedirected.redirects`: what a line is redirected to,
    - `stateAfter_record`: where the file of a command comes from.
-/

namespace ClangDb

namespace Database

variable {o : Options} {s : State}

/-! ### Records that do not depend on the state -/

/-- Holds of a record each of whose commands comes after a line that names a file. -/
def WellPaired (record : List Text) : Prop :=
  ∀ a raw b, record = a ++ raw :: b → isCommand raw = true → ∃ x ∈ a, (fileOn? x).isSome

theorem wellPaired_nil : WellPaired [] := by
  intro a raw b heq
  simp at heq

/-- A record is well paired if its first line holds no command, and names a file or is
    followed by the lines of a well-paired record. -/
theorem wellPaired_cons {raw : Text} {record : List Text} :
    WellPaired (raw :: record) ↔
      isCommand raw = false ∧ ((fileOn? raw).isSome ∨ WellPaired record) := by
  constructor
  · -- a command on the first line has nothing before it
    intro h
    refine ⟨?_, ?_⟩
    · by_contra hc
      obtain ⟨x, hx, _⟩ := h [] raw record rfl (by simpa using hc)
      cases hx
    · by_contra hn
      rw [not_or] at hn
      apply hn.2
      intro a x b heq hx
      obtain ⟨y, hy, hfile⟩ := h (raw :: a) x b (by rw [heq]; rfl) hx
      rcases List.mem_cons.mp hy with rfl | hy
      · exact absurd hfile hn.1
      · exact ⟨y, hy, hfile⟩
  · rintro ⟨hraw, h⟩ a x b heq hx
    cases a with
    | nil =>
      rw [← (List.cons.inj heq).1, hraw] at hx
      cases hx
    | cons y a =>
      obtain ⟨rfl, rfl⟩ := List.cons.inj heq
      rcases h with h | h
      · exact ⟨raw, List.mem_cons_self, h⟩
      · obtain ⟨z, hz, hfile⟩ := h a x b rfl hx
        exact ⟨z, List.mem_cons_of_mem _ hz, hfile⟩

/-- Whether a record is well paired is decided line by line. -/
instance decidableWellPaired : DecidablePred WellPaired
  | [] => isTrue wellPaired_nil
  | _ :: record =>
    have := decidableWellPaired record
    decidable_of_iff _ wellPaired_cons.symm

/-- A well-paired record is scanned alike from every state. -/
theorem scanLines_eq_of_wellPaired {record : List Text} (h : WellPaired record)
    (s t : State) : scanLines o s record = scanLines o t record := by
  induction record generalizing s t with
  | nil => rfl
  | cons raw record ih =>
    obtain ⟨hraw, h⟩ := wellPaired_cons.mp h
    simp only [scanLines, scanLine_of_not_command hraw]
    cases hfile : fileOn? raw with
    | some file =>
      -- the file replaces whatever the two states were
      have hnext : ∀ u : State, nextState u raw = ⟨.command, file⟩ := by
        intro u
        simp [nextState, hraw, hfile]
      rw [hnext, hnext]
    | none =>
      have htail := h.resolve_left (by simp [hfile])
      rw [ih htail (nextState s raw) (nextState t raw)]

/-! ### Redirected lines -/

/-- A line is redirected after other lines. -/
def IsRedirected (o : Options) (before : List Text) (raw : Text) : Prop :=
  redirect? o (stateAfter .initial before) raw ≠ none

theorem IsRedirected.isCommand {before : List Text} {raw : Text}
    (h : IsRedirected o before raw) : isCommand raw = true := by
  cases hc : Database.isCommand raw with
  | true => rfl
  | false => exact absurd (redirect?_of_not_command hc) h

theorem IsRedirected.awaits {before : List Text} {raw : Text} (h : IsRedirected o before raw) :
    Awaits before (stateAfter .initial before).currentFile := by
  obtain ⟨⟨line, job⟩, hredirect⟩ := Option.ne_none_iff_exists'.mp h
  exact awaits_of_redirect? hredirect

/-- What is awaited after a command was named after it. -/
theorem Awaits.of_append_command {a b : List Text} {raw file : Text}
    (h : Awaits (a ++ raw :: b) file) (hraw : isCommand raw = true) : Awaits b file := by
  rw [List.append_cons, awaits_append] at h
  rcases h with h | ⟨h, _⟩
  · exact h
  · have hfile := eq_of_awaits_concat h fun hp => by simp [hp.1] at hraw
    rw [isCommand_of_fileOn? hfile] at hraw
    cases hraw

/-- Holds of a step that redirects a line for a file: it gives the command that is written for the
    file, with the ending of the line, and the job of the file, unless the file is skipped. -/
def Redirects (o : Options) (file raw : Text) (step : Step) : Prop :=
  ∃ line job, redirectCommand o file (Text.splitEnding raw).1 = .redirected line job ∧
    job.sourceFile = file ∧ step.line = line ++ (Text.splitEnding raw).2 ∧
    step.job = if o.skips file then none else some job

/-- The job of a redirected line is for the file that the scan stands at. -/
theorem sourceFile_of_redirect? {raw line : Text} {job : Job}
    (h : redirect? o s raw = some (line, job)) : job.sourceFile = s.currentFile := by
  obtain ⟨_, _, hredirected⟩ := redirect?_spec h
  obtain ⟨_, _, hsource, _⟩ := redirectCommand_spec hredirected
  exact hsource

/-- A line is redirected for the file that the scan stands at. -/
theorem IsRedirected.redirects {before : List Text} {raw : Text} (h : IsRedirected o before raw) :
    Redirects o (stateAfter .initial before).currentFile raw
      (scanLine o (stateAfter .initial before) raw) := by
  obtain ⟨⟨line, job⟩, hredirect⟩ := Option.ne_none_iff_exists'.mp h
  obtain ⟨_, _, hredirected⟩ := redirect?_spec hredirect
  refine ⟨line, job, hredirected, sourceFile_of_redirect? hredirect, ?_, ?_⟩
  · rw [scanLine_line, hredirect]
  · rw [scanLine_job, hredirect]

/-- Between two redirected lines a file is named. -/
theorem exists_file_between {a b : List Text} {x y : Text} (hx : IsRedirected o a x)
    (hy : IsRedirected o (a ++ x :: b) y) : ∃ z ∈ b, (fileOn? z).isSome := by
  obtain ⟨z, hz, hfile⟩ := (hy.awaits.of_append_command hx.isCommand).exists_mem
  exact ⟨z, hz, by rw [hfile]; rfl⟩

/-- A job is that of a command line, for the file that the line was awaited for. -/
theorem mem_jobs_spec {lines : List Text} {job : Job}
    (h : job ∈ (scanLines o .initial lines).jobs) :
    ∃ a raw b, lines = a ++ raw :: b ∧ isCommand raw = true ∧ Awaits a job.sourceFile ∧
      (scanLine o (stateAfter .initial a) raw).job = some job := by
  obtain ⟨a, raw, b, rfl, hjob⟩ := mem_jobs_scanLines h
  obtain ⟨line, hredirect⟩ := redirect?_of_job hjob
  refine ⟨a, raw, b, rfl, (redirect?_spec hredirect).1, ?_, hjob⟩
  rw [sourceFile_of_redirect? hredirect]
  exact awaits_of_redirect? hredirect

/-- The scans of records, each from the beginning, one after another. -/
def scanRecords (o : Options) (records : List (List Text)) : Scan where
  lines := records.flatMap fun record => (scanLines o .initial record).lines
  jobs := records.flatMap fun record => (scanLines o .initial record).jobs
  records := records.flatMap fun record => (scanLines o .initial record).records

theorem scanLines_flatten_eq {records : List (List Text)} (h : ∀ r ∈ records, WellPaired r)
    (s : State) : scanLines o s records.flatten = scanRecords o records := by
  induction records generalizing s with
  | nil => rfl
  | cons record records ih =>
    -- the state that the earlier records left is of no account
    rw [List.flatten_cons, scanLines_append,
      scanLines_eq_of_wellPaired (h record List.mem_cons_self) s .initial,
      ih fun r hr => h r (List.mem_cons_of_mem _ hr)]
    rfl

/-- **A scan of well-paired records is the scans of each, one after another.**  Each job is
    for the last file that its own record named before the command.  A redirected line comes
    after a line that names a file with no command between them, so that no two have the
    same. -/
theorem scanLines_flatten {records : List (List Text)} (h : ∀ r ∈ records, WellPaired r) :
    scanLines o .initial records.flatten = scanRecords o records ∧
      (∀ record ∈ records, ∀ job ∈ (scanLines o .initial record).jobs,
        ∃ a raw b, record = a ++ raw :: b ∧ isCommand raw = true ∧ Awaits a job.sourceFile ∧
          (scanLine o (stateAfter .initial a) raw).job = some job) ∧
      (∀ a x b, records.flatten = a ++ x :: b → IsRedirected o a x →
        ∃ front y back, a = front ++ y :: back ∧ (fileOn? y).isSome ∧
          ∀ z ∈ back, isCommand z = false) ∧
      ∀ a x b y c, records.flatten = a ++ x :: (b ++ y :: c) → IsRedirected o a x →
        IsRedirected o (a ++ x :: b) y → ∃ z ∈ b, (fileOn? z).isSome := by
  refine ⟨scanLines_flatten_eq h .initial, fun _ _ _ hjob => mem_jobs_spec hjob, ?_,
    fun _ _ _ _ _ _ hx hy => exists_file_between hx hy⟩
  intro a x b _ hx
  obtain ⟨front, y, back, rfl, hy, hback⟩ := hx.awaits
  exact ⟨front, y, back, rfl, by rw [hy]; rfl, fun z hz => (hback z hz).1⟩

/-- The options of the examples. -/
def sampleOptions : Options := ⟨"out", "/engine", false, .clang, false⟩

/-- A record with a command, one with arguments and one whose first file has no end. -/
def pairedSample : List (List Text) := [
  ["\x7b\"file\": \"a.cpp\",\n", "\"command\": \"\\\"clang++\\\" -c\",\n", "\"n\": 1\x7d\n"],
  ["\x7b\"file\": \"b.cpp\",\n", "\"arguments\": []\x7d\n"],
  ["\"file\": \"c", "\"file\": \"d.cpp\",\r\n", "\"command\": \"\\\"clang++\\\" -O\","]]

/-- The records of the example are scanned one by one. -/
theorem scanLines_flatten_pairedSample :
    (∀ r ∈ pairedSample, WellPaired r) ∧
      scanLines sampleOptions .initial pairedSample.flatten =
        scanRecords sampleOptions pairedSample := by
  have h : ∀ r ∈ pairedSample, WellPaired r := by decide +kernel
  exact ⟨h, (scanLines_flatten h).1⟩

/-! ### Records in general -/

theorem nextState_of_file {raw file : Text} (h : fileOn? raw = some file) (s : State) :
    nextState s raw = ⟨.command, file⟩ := by
  simp [nextState, isCommand_of_fileOn? h, h]

/-- After a line that names a file it does not matter where the scan stood. -/
theorem stateAfter_eq_of_file {lines : List Text} {raw : Text} (hraw : raw ∈ lines)
    (hfile : (fileOn? raw).isSome) (s t : State) : stateAfter s lines = stateAfter t lines := by
  obtain ⟨file, hfile⟩ := Option.isSome_iff_exists.mp hfile
  obtain ⟨a, b, rfl⟩ := List.append_of_mem hraw
  rw [stateAfter_append, stateAfter_append, stateAfter_cons, stateAfter_cons,
    nextState_of_file hfile, nextState_of_file hfile]

/-- Lines that are passive leave the scan where it stands. -/
theorem stateAfter_of_passive {lines : List Text} (h : ∀ x ∈ lines, Passive x) (s : State) :
    stateAfter s lines = s := by
  induction lines with
  | nil => rfl
  | cons x lines ih =>
    obtain ⟨hc, hfile⟩ := h x List.mem_cons_self
    have hx : nextState s x = s := by simp [nextState, hc, hfile]
    rw [stateAfter_cons, hx]
    exact ih fun y hy => h y (List.mem_cons_of_mem _ hy)

/-- A file that is awaited after records was left behind by one of them, and the lines of
    those after it are passive. -/
theorem awaits_flatten {records : List (List Text)} {file : Text}
    (h : Awaits records.flatten file) :
    ∃ front record back, records = front ++ record :: back ∧ Awaits record file ∧
      ∀ x ∈ back.flatten, Passive x := by
  induction records with
  | nil => exact absurd h not_awaits_nil
  | cons record records ih =>
    rw [List.flatten_cons, awaits_append] at h
    rcases h with h | ⟨h, hpassive⟩
    · obtain ⟨front, r, back, rfl, hr, hback⟩ := ih h
      exact ⟨record :: front, r, back, rfl, hr, hback⟩
    · exact ⟨[], record, records, rfl, h, hpassive⟩

theorem scanLine_of_not_redirected {before : List Text} {raw : Text}
    (h : ¬ IsRedirected o before raw) :
    (scanLine o (stateAfter .initial before) raw).line = raw ∧
      (scanLine o (stateAfter .initial before) raw).job = none := by
  rw [scanLine_line, scanLine_job, Decidable.not_not.mp h]
  exact ⟨rfl, rfl⟩

/-- Holds of records whose commands are redirected for files that their own record has
    named, and not at all where it has named none. -/
def Attributed (o : Options) (records : List (List Text)) : Prop :=
  ∀ earlier a raw b later, records = earlier ++ (a ++ raw :: b) :: later →
    IsRedirected o (earlier.flatten ++ a) raw →
      ∃ x ∈ a, fileOn? x = some (stateAfter .initial (earlier.flatten ++ a)).currentFile

/-- **Where the file of a command comes from.**  If the record of the command has named one
    before it, the scan stands where it would stand in the record alone, and a command is
    redirected for the last file of the record.  If it has named none, the command is passed
    through, except that one which is the first of its record goes with a file that an earlier
    record left without a command.  That file is then the one for which the line is written and
    which the job is for. -/
theorem stateAfter_record (o : Options) (earlier : List (List Text)) (a : List Text) (raw : Text) :
    ((∃ x ∈ a, (fileOn? x).isSome) →
      stateAfter .initial (earlier.flatten ++ a) = stateAfter .initial a ∧
        (IsRedirected o (earlier.flatten ++ a) raw →
          Awaits a (stateAfter .initial (earlier.flatten ++ a)).currentFile)) ∧
    ((∀ x ∈ a, fileOn? x = none) →
      (∀ file, Awaits earlier.flatten file → (∀ x ∈ a, isCommand x = false) →
        stateAfter .initial (earlier.flatten ++ a) = ⟨.command, file⟩) ∧
      (IsRedirected o (earlier.flatten ++ a) raw →
        (∀ x ∈ a, isCommand x = false) ∧ ∃ front record back,
          earlier = front ++ record :: back ∧ (∀ x ∈ back.flatten, Passive x) ∧
          Awaits record (stateAfter .initial (earlier.flatten ++ a)).currentFile)) ∧
    (IsRedirected o (earlier.flatten ++ a) raw →
      Redirects o (stateAfter .initial (earlier.flatten ++ a)).currentFile raw
        (scanLine o (stateAfter .initial (earlier.flatten ++ a)) raw)) ∧
    (¬ IsRedirected o (earlier.flatten ++ a) raw →
      (scanLine o (stateAfter .initial (earlier.flatten ++ a)) raw).line = raw ∧
        (scanLine o (stateAfter .initial (earlier.flatten ++ a)) raw).job = none) := by
  refine ⟨?_, ?_, IsRedirected.redirects, scanLine_of_not_redirected⟩
  · rintro ⟨x, hx, hfile⟩
    -- the file replaces whatever the earlier records left
    have hstate := stateAfter_eq_of_file hx hfile (stateAfter .initial earlier.flatten) .initial
    rw [← stateAfter_append] at hstate
    refine ⟨hstate, fun h => ?_⟩
    rw [hstate]
    have hredirected : IsRedirected o a raw := by rwa [IsRedirected, ← hstate]
    exact hredirected.awaits
  · intro hnone
    refine ⟨fun file hfile ha => ?_, fun h => ?_⟩
    · -- all lines of the record so far are passive
      rw [stateAfter_append, stateAfter_of_passive fun x hx => ⟨ha x hx, hnone x hx⟩]
      exact (stateAfter_eq_iff _ _).mpr hfile
    · rcases awaits_append.mp h.awaits with ha | ⟨hearlier, hpassive⟩
      · -- no line of the record names a file
        obtain ⟨x, hx, hfile⟩ := ha.exists_mem
        rw [hnone x hx] at hfile
        cases hfile
      · obtain ⟨front, record, back, heq, hawaits, hback⟩ := awaits_flatten hearlier
        exact ⟨fun x hx => (hpassive x hx).1, front, record, back, heq, hback, hawaits⟩

/-- A record that leaves its file without a command. -/
def staleRecord : List Text :=
  ["[\n", "\x7b\n", "\"file\": \"a.cpp\",\n", "\"arguments\": []\n", "\x7d,\n"]

/-- A command whose record names its file after it. -/
def staleCommand : Text := "\"command\": \"\\\"clang++\\\" -c b.cpp\",\n"

/-- The lines of the second record around its command. -/
def staleFront : List Text := ["\x7b\n"]

@[inherit_doc staleFront]
def staleBack : List Text := ["\"file\": \"b.cpp\"\n", "\x7d\n", "]\n"]

/-- A database of the two records. -/
def staleSample : List (List Text) := [staleRecord, staleFront ++ staleCommand :: staleBack]

/-- The two records are the lines of an array of two objects, and the command of the second
    is redirected for the file of the first, which its job is for. -/
theorem not_attributed_staleSample :
    (Json.read staleSample.flatten.flatten matches .ok (.array [.object _, .object _])) = true ∧
      Text.rawLines staleSample.flatten.flatten = staleSample.flatten ∧
      (scanLine sampleOptions (stateAfter .initial (staleRecord ++ staleFront))
        staleCommand).job.map (·.sourceFile) = some (Text.ofString "a.cpp") ∧
      ¬ Attributed sampleOptions staleSample := by
  refine ⟨by decide +kernel, by decide +kernel, by decide +kernel, fun h => ?_⟩
  have hredirected : IsRedirected sampleOptions ([staleRecord].flatten ++ staleFront)
      staleCommand := by
    unfold IsRedirected
    decide +kernel
  obtain ⟨x, hx, hfile⟩ := h [staleRecord] staleFront staleCommand staleBack [] rfl hredirected
  -- the second record has named no file before its command
  have hnone : ∀ x ∈ staleFront, fileOn? x = none := by decide +kernel
  rw [hnone x hx] at hfile
  cases hfile

end Database

end ClangDb

import ClangDb.Database.Scan
import ClangDb.Proofs.Text.Lines

/-! # What one line does to a scan

    A line either holds a command, or names a file, or is passive.  The state
    after some lines depends on these kinds alone and not on the options: it
    awaits a command exactly if the last line that is not passive names a file.

    Key theorems:
    - `scanLine_state`, `scanLine_line`, `scanLine_job`: one line,
    - `scanLines_append`: a scan of lines and more lines,
    - `stateAfter_eq_iff`: the invariant, said without running the scan.
-/

namespace ClangDb

namespace Database

/-! ### Kinds of lines -/

/-- Whether a line holds a command key. -/
def isCommand (raw : Text) : Bool := (Text.splitEnding raw).1.contains commandKey

/-- The file that a line without a command names. -/
def fileOn? (raw : Text) : Option Text :=
  if isCommand raw then none else fileValue? (Text.splitEnding raw).1

/-- Holds of a line that neither holds a command nor names a file. -/
def Passive (raw : Text) : Prop := isCommand raw = false ∧ fileOn? raw = none

theorem isCommand_of_fileOn? {raw file : Text} (h : fileOn? raw = some file) :
    isCommand raw = false := by
  cases hc : isCommand raw with
  | false => rfl
  | true => simp [fileOn?, hc] at h

/-! ### One line -/

/-- The state after a line. -/
def nextState (s : State) (raw : Text) : State :=
  if isCommand raw then { s with phase := .file }
  else match fileOn? raw with
    | some file => ⟨.command, file⟩
    | none => s

/-- The new content of a command line that is redirected, and its job whether or not
    the entry is skipped. -/
def redirect? (o : Options) (s : State) (raw : Text) : Option (Text × Job) :=
  if isCommand raw ∧ s.phase = .command then
    match redirectCommand o s.currentFile (Text.splitEnding raw).1 with
    | .redirected line job => some (line, job)
    | _ => none
  else none

theorem scanLine_of_command {o : Options} {s : State} {raw : Text} (h : isCommand raw = true)
    (hs : s.phase = .command) :
    scanLine o s raw =
      match redirectCommand o s.currentFile (Text.splitEnding raw).1 with
      | .redirected line job =>
        ⟨line ++ (Text.splitEnding raw).2, if o.skips s.currentFile then none else some job,
          { s with phase := .file },
          (Outcome.redirected line job).records o s.currentFile⟩
      | outcome => ⟨raw, none, { s with phase := .file }, outcome.records o s.currentFile⟩ := by
  have h' : (Text.splitEnding raw).1.contains commandKey = true := h
  simp only [scanLine, h', if_true, hs]
  cases redirectCommand o s.currentFile (Text.splitEnding raw).1 <;> rfl

theorem scanLine_of_stray {o : Options} {s : State} {raw : Text} (h : isCommand raw = true)
    (hs : s.phase = .file) :
    scanLine o s raw =
      ⟨raw, none, s, [⟨.debug, "Command without a preceding file entry, passing through"⟩]⟩ := by
  have h' : (Text.splitEnding raw).1.contains commandKey = true := h
  simp only [scanLine, h', if_true, hs]

theorem scanLine_of_not_command {o : Options} {s : State} {raw : Text}
    (h : isCommand raw = false) :
    scanLine o s raw = ⟨raw, none, nextState s raw, []⟩ := by
  have h' : (Text.splitEnding raw).1.contains commandKey = false := h
  simp only [scanLine, nextState, fileOn?, h, h', Bool.false_eq_true, if_false]
  cases fileValue? (Text.splitEnding raw).1 <;> rfl

theorem redirect?_of_command {o : Options} {s : State} {raw : Text} (h : isCommand raw = true)
    (hs : s.phase = .command) :
    redirect? o s raw =
      match redirectCommand o s.currentFile (Text.splitEnding raw).1 with
      | .redirected line job => some (line, job)
      | _ => none :=
  if_pos ⟨h, hs⟩

/-- Nothing is redirected where no command is awaited. -/
theorem redirect?_of_file {o : Options} {s : State} (raw : Text) (h : s.phase = .file) :
    redirect? o s raw = none := by
  simp [redirect?, h]

theorem redirect?_of_not_command {o : Options} {s : State} {raw : Text}
    (h : isCommand raw = false) : redirect? o s raw = none := by
  simp [redirect?, h]

theorem scanLine_state (o : Options) (s : State) (raw : Text) :
    (scanLine o s raw).state = nextState s raw := by
  cases hc : isCommand raw with
  | false => rw [scanLine_of_not_command hc]
  | true =>
    rw [nextState, if_pos hc]
    cases hs : s.phase with
    | file =>
      rw [scanLine_of_stray hc hs, ← hs]
    | command =>
      rw [scanLine_of_command hc hs]
      cases redirectCommand o s.currentFile (Text.splitEnding raw).1 <;> rfl

/-- A line comes back as it was, or with new content and its own ending. -/
theorem scanLine_line (o : Options) (s : State) (raw : Text) :
    (scanLine o s raw).line = match redirect? o s raw with
      | some (line, _) => line ++ (Text.splitEnding raw).2
      | none => raw := by
  cases hc : isCommand raw with
  | false => rw [scanLine_of_not_command hc, redirect?_of_not_command hc]
  | true =>
    cases hs : s.phase with
    | file => rw [scanLine_of_stray hc hs, redirect?_of_file raw hs]
    | command =>
      rw [scanLine_of_command hc hs, redirect?_of_command hc hs]
      cases redirectCommand o s.currentFile (Text.splitEnding raw).1 <;> rfl

/-- A job comes from a line that is redirected and whose entry is not skipped. -/
theorem scanLine_job (o : Options) (s : State) (raw : Text) :
    (scanLine o s raw).job = match redirect? o s raw with
      | some (_, job) => if o.skips s.currentFile then none else some job
      | none => none := by
  cases hc : isCommand raw with
  | false => rw [scanLine_of_not_command hc, redirect?_of_not_command hc]
  | true =>
    cases hs : s.phase with
    | file => rw [scanLine_of_stray hc hs, redirect?_of_file raw hs]
    | command =>
      rw [scanLine_of_command hc hs, redirect?_of_command hc hs]
      cases redirectCommand o s.currentFile (Text.splitEnding raw).1 <;> rfl

theorem redirect?_of_job {o : Options} {s : State} {raw : Text} {job : Job}
    (h : (scanLine o s raw).job = some job) : ∃ line, redirect? o s raw = some (line, job) := by
  rw [scanLine_job] at h
  split at h
  · next line job' hredirect =>
    split at h
    · cases h
    · obtain rfl := Option.some.inj h
      exact ⟨line, hredirect⟩
  · cases h

/-- Only a line with a command is redirected, and only when one is awaited. -/
theorem redirect?_spec {o : Options} {s : State} {raw line : Text} {job : Job}
    (h : redirect? o s raw = some (line, job)) :
    isCommand raw = true ∧ s.phase = .command ∧
      redirectCommand o s.currentFile (Text.splitEnding raw).1 = .redirected line job := by
  unfold redirect? at h
  split at h
  · next hcond =>
    split at h
    · next line' job' heq =>
      obtain ⟨rfl, rfl⟩ := Prod.mk.inj (Option.some.inj h)
      exact ⟨hcond.1, hcond.2, heq⟩
    · cases h
  · cases h

/-! ### All lines -/

/-- The state after lines. -/
def stateAfter (s : State) (lines : List Text) : State := lines.foldl nextState s

/-- A scan followed by another. -/
def Scan.append (a b : Scan) : Scan :=
  ⟨a.lines ++ b.lines, a.jobs ++ b.jobs, a.records ++ b.records⟩

@[simp] theorem stateAfter_nil (s : State) : stateAfter s [] = s := rfl

@[simp] theorem stateAfter_cons (s : State) (raw : Text) (lines : List Text) :
    stateAfter s (raw :: lines) = stateAfter (nextState s raw) lines := rfl

theorem stateAfter_append (s : State) (a b : List Text) :
    stateAfter s (a ++ b) = stateAfter (stateAfter s a) b :=
  List.foldl_append

theorem stateAfter_concat (s : State) (a : List Text) (raw : Text) :
    stateAfter s (a ++ [raw]) = nextState (stateAfter s a) raw := by
  rw [stateAfter_append]
  rfl

/-- A scan of lines and more lines is a scan of each, the second from the state after the first. -/
theorem scanLines_append (o : Options) (s : State) (a b : List Text) :
    scanLines o s (a ++ b) = (scanLines o s a).append (scanLines o (stateAfter s a) b) := by
  induction a generalizing s with
  | nil => rfl
  | cons raw a ih =>
    -- the first line is scanned alike, and the rest from the state that it leaves
    simp only [List.cons_append, scanLines, scanLine_state, stateAfter_cons]
    rw [ih]
    simp [Scan.append]

theorem length_scanLines (o : Options) (s : State) (lines : List Text) :
    (scanLines o s lines).lines.length = lines.length := by
  induction lines generalizing s with
  | nil => rfl
  | cons raw lines ih => simp [scanLines, ih]

/-- The line at a position is scanned from the state after those before it. -/
theorem getElem?_scanLines (o : Options) (s : State) (lines : List Text) (i : Nat) :
    (scanLines o s lines).lines[i]? =
      lines[i]?.map fun raw => (scanLine o (stateAfter s (lines.take i)) raw).line := by
  induction lines generalizing s i with
  | nil => simp [scanLines]
  | cons raw lines ih =>
    cases i with
    | zero => rfl
    | succ i => simp [scanLines, ih, scanLine_state]

/-- What holds of each line and of what it gives holds of the two lists. -/
theorem forall₂_scanLines {o : Options} {s : State} {lines : List Text} {R : Text → Text → Prop}
    (h : ∀ before raw after, lines = before ++ raw :: after →
      R raw (scanLine o (stateAfter s before) raw).line) :
    List.Forall₂ R lines (scanLines o s lines).lines := by
  induction lines generalizing s with
  | nil => exact .nil
  | cons raw lines ih =>
    refine .cons (h [] raw lines rfl) (ih fun before x after heq => ?_)
    rw [scanLine_state, ← stateAfter_cons]
    exact h (raw :: before) x after (by rw [heq]; rfl)

/-- Each line that a scan gives comes from a line. -/
theorem mem_lines_scanLines {o : Options} {s : State} {lines : List Text} {line : Text}
    (h : line ∈ (scanLines o s lines).lines) :
    ∃ a raw b, lines = a ++ raw :: b ∧ (scanLine o (stateAfter s a) raw).line = line := by
  induction lines generalizing s with
  | nil => simp [scanLines] at h
  | cons raw lines ih =>
    simp only [scanLines] at h
    rcases List.mem_cons.mp h with rfl | h
    · exact ⟨[], raw, lines, rfl, rfl⟩
    · obtain ⟨a, raw', b, rfl, hline⟩ := ih h
      rw [scanLine_state] at hline
      exact ⟨raw :: a, raw', b, rfl, hline⟩

/-- Each job comes from a line. -/
theorem mem_jobs_scanLines {o : Options} {s : State} {lines : List Text} {job : Job}
    (h : job ∈ (scanLines o s lines).jobs) :
    ∃ a raw b, lines = a ++ raw :: b ∧ (scanLine o (stateAfter s a) raw).job = some job := by
  induction lines generalizing s with
  | nil => simp [scanLines] at h
  | cons raw lines ih =>
    simp only [scanLines] at h
    rcases List.mem_append.mp h with h | h
    · exact ⟨[], raw, lines, rfl, by simpa using h⟩
    · obtain ⟨a, raw', b, rfl, hjob⟩ := ih h
      rw [scanLine_state] at hjob
      exact ⟨raw :: a, raw', b, rfl, hjob⟩

/-! ### The invariant -/

/-- Holds of lines after which a command of a file is awaited: the last of them that
    is not passive names the file. -/
def Awaits (lines : List Text) (file : Text) : Prop :=
  ∃ a raw b, lines = a ++ raw :: b ∧ fileOn? raw = some file ∧ ∀ x ∈ b, Passive x

/-- The file whose command is awaited is named on one of the lines. -/
theorem Awaits.exists_mem {lines : List Text} {file : Text} (h : Awaits lines file) :
    ∃ raw ∈ lines, fileOn? raw = some file := by
  obtain ⟨a, raw, b, rfl, hraw, _⟩ := h
  exact ⟨raw, by simp, hraw⟩

theorem not_awaits_nil {file : Text} : ¬ Awaits [] file := by
  rintro ⟨a, raw, b, h, _⟩
  simp at h

theorem awaits_concat_of_file {lines : List Text} {raw file : Text}
    (h : fileOn? raw = some file) : Awaits (lines ++ [raw]) file :=
  ⟨lines, raw, [], rfl, h, by simp⟩

theorem awaits_concat_of_passive {lines : List Text} {raw file : Text} (h : Passive raw) :
    Awaits (lines ++ [raw]) file ↔ Awaits lines file := by
  constructor
  · rintro ⟨a, x, b, heq, hx, hb⟩
    -- the last line is passive, so the file was named before it
    rcases List.eq_nil_or_concat b with rfl | ⟨b, y, rfl⟩
    · obtain ⟨_, rfl⟩ := List.append_inj' heq rfl |>.imp_right fun h => (List.cons.inj h).1
      rw [h.2] at hx
      cases hx
    · rw [List.concat_eq_append] at heq hb
      have heq' : lines ++ [raw] = (a ++ x :: b) ++ [y] := by simpa using heq
      obtain ⟨rfl, _⟩ := List.append_inj' heq' rfl
      exact ⟨a, x, b, rfl, hx, fun z hz => hb z (List.mem_append_left _ hz)⟩
  · rintro ⟨a, x, b, rfl, hx, hb⟩
    refine ⟨a, x, b ++ [raw], by simp, hx, fun z hz => ?_⟩
    rcases List.mem_append.mp hz with hz | hz
    · exact hb z hz
    · rw [List.mem_singleton.mp hz]
      exact h

/-- Only a line that names a file makes a scan await another command than before. -/
theorem eq_of_awaits_concat {lines : List Text} {raw file : Text}
    (h : Awaits (lines ++ [raw]) file) (hp : ¬ Passive raw) : fileOn? raw = some file := by
  obtain ⟨a, x, b, heq, hx, hb⟩ := h
  rcases List.eq_nil_or_concat b with rfl | ⟨b, y, rfl⟩
  · have hraw : raw = x := (List.cons.inj (List.append_inj' heq rfl).2).1
    rwa [hraw]
  · rw [List.concat_eq_append] at heq hb
    have heq' : lines ++ [raw] = (a ++ x :: b) ++ [y] := by simpa using heq
    have hraw : raw = y := (List.cons.inj (List.append_inj' heq' rfl).2).1
    exact absurd (hb y (by simp)) (hraw ▸ hp)

/-- A file that is awaited after more lines was named on these, or it was awaited before
    and they are passive. -/
theorem awaits_append {a b : List Text} {file : Text} :
    Awaits (a ++ b) file ↔ Awaits b file ∨ (Awaits a file ∧ ∀ x ∈ b, Passive x) := by
  induction b using List.reverseRecOn with
  | nil => simp [not_awaits_nil]
  | append_singleton b raw ih =>
    rw [← List.append_assoc]
    -- a passive line changes neither side; another decides both
    by_cases hp : Passive raw
    · rw [awaits_concat_of_passive hp, awaits_concat_of_passive hp, ih]
      simp [List.mem_append, or_imp, forall_and, hp]
    · constructor
      · intro h
        exact .inl (awaits_concat_of_file (eq_of_awaits_concat h hp))
      · rintro (h | ⟨_, h⟩)
        · exact awaits_concat_of_file (eq_of_awaits_concat h hp)
        · exact absurd (h raw (by simp)) hp

/-- **A scan that began afresh awaits a command exactly if the last line that is not
    passive names a file**, and it is the command of that file. -/
theorem stateAfter_eq_iff (lines : List Text) (file : Text) :
    stateAfter .initial lines = ⟨.command, file⟩ ↔ Awaits lines file := by
  induction lines using List.reverseRecOn generalizing file with
  | nil =>
    constructor
    · intro h
      cases h
    · intro h
      exact absurd h not_awaits_nil
  | append_singleton lines raw ih =>
    rw [stateAfter_concat, nextState]
    by_cases hc : isCommand raw = true
    · -- a command line ends the wait
      rw [if_pos hc]
      constructor
      · intro h
        cases h
      · intro h
        have hfile := eq_of_awaits_concat h fun hp => by simp [hp.1] at hc
        rw [isCommand_of_fileOn? hfile] at hc
        cases hc
    · rw [if_neg hc]
      -- a line that names a file begins a new wait
      cases hfile : fileOn? raw with
      | some g =>
        constructor
        · intro h
          obtain rfl := (State.mk.inj h).2
          exact awaits_concat_of_file hfile
        · intro h
          have := eq_of_awaits_concat h fun hp => by simp [hp.2] at hfile
          rw [hfile] at this
          rw [Option.some.inj this]
      | none =>
        -- any other line leaves the wait as it was
        have hp : Passive raw := ⟨by simpa using hc, hfile⟩
        rw [awaits_concat_of_passive hp]
        exact ih file

/-- What is redirected is the command of the file that is awaited. -/
theorem awaits_of_redirect? {o : Options} {before : List Text} {raw line : Text} {job : Job}
    (h : redirect? o (stateAfter .initial before) raw = some (line, job)) :
    Awaits before (stateAfter .initial before).currentFile := by
  obtain ⟨_, hphase, _⟩ := redirect?_spec h
  rw [← stateAfter_eq_iff, ← hphase]

end Database

end ClangDb

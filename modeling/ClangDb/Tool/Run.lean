import ClangDb.Tool.Command
import ClangDb.World

/-! # Running a tool

    A tool is run in a folder and waited for.  That it cannot be started, or does
    not end in time, is a fault; an exit code other than zero is reported and
    left to the caller.  A tool that is called is recorded once it has come to
    its end, unless it only slept.
-/

namespace ClangDb

namespace Tool

/-- What a tool that ran to its end leaves. -/
structure Ran where
  code : Int
  output : Text
  errors : Text
  deriving DecidableEq, Repr

/-- How the tools of a machine are run: a command, in a folder and for so long at most.  What a
    tool does meanwhile and how it ends is its own affair. -/
abbrev Runner := List Json → Option Text → Option Seconds → Task Ran

/-- A number of seconds as a number. -/
def secondsValue : Seconds → Except Fault Binary64
  | .whole n =>
    match Binary64.ofInt n with
    | .infinite _ => .error .tooGreat
    | x => .ok x
  | .fraction x => .ok x

/-- The longest time that can be waited for: 2147483647 milliseconds. -/
def longestWait : Binary64 := .ofDecimal false 2147483647 (-3)

/-- The code of an ending: a signal counts below zero. -/
def code : Ending → Int
  | .exited code => code
  | .killed signal => -signal
  | .sleeping _ => 0

/-- Whether an ending comes after a limit.  Nothing ends within no time at all; a
    limit that is no number, or too long to wait for, is a fault. -/
def isLate (limit : Option Seconds) (ending : Ending) : Except Fault Bool :=
  match limit with
  | none => .ok false
  | some limit => do
    let x ← secondsValue limit
    if x.isZero || x.ltNat 0 then return true
    match x with
    | .nan => throw (.noInteger .notANumber)
    | .infinite _ => throw (.noInteger .unbounded)
    | .finite .. =>
      if longestWait.lt x then throw .limitTooLong
      match ending with
      | .sleeping seconds => return x.lt seconds
      | _ => return false

/-- The arguments of a command as they are handed over. -/
def handedOver : List Json → Except Fault (List Text)
  | [] => .ok []
  | .string s :: r =>
    if .char '\x00' ∈ s then .error (.access .embeddedNull)
    else match Utf8.encode s with
      | .error e => .error (.access (.unencodable e))
      | .ok _ => (handedOver r).map (s :: ·)
  | v :: _ => .error (.wrongType (.path v))

/-- The store in which a tool's paths are followed: the one it is run in, from
    another folder. -/
def enter (s : Store) (folder : Option Text) : Except AccessError Store :=
  match folder with
  | none => .ok s
  | some folder =>
    match s.locate folder with
    | .error e => .error e
    | .ok p =>
      match s.entry? p with
      | some .folder => .ok { s with workingDir := p }
      | some (.file _ _) => .error (.file ⟨.notFolder, folder⟩)
      | none => .error (.file ⟨.notFound, folder⟩)

/-- The program that a command starts.  A name without a slash is a program of
    the system, of which there is none here. -/
def program (s : Store) (name : Text) : Except AccessError Program :=
  if name.isEmpty then .error (.file ⟨.denied, name⟩)
  else if !name.contains "/" then .error (.file ⟨.notFound, name⟩)
  else match s.find name with
    | .error e => .error e
    | .ok (.file _ (some p)) => .ok p
    | .ok _ => .error (.file ⟨.denied, name⟩)

/-- Writes files one after another; one that cannot be written is left out. -/
def writeAll (s : Store) (files : List (Text × List UInt8)) : Store :=
  files.foldl (fun s (path, bytes) => ((s.write path bytes).toOption).getD s) s

/-- The fault of a tool that could not be started. -/
def startFault (tool : Text) : AccessError → Fault
  | .file e => .tool (if e.cause = .notFound then .notFound tool e else .failed tool e)
  | e => .access e

/-- The last part of a text. -/
def lastPart (count : Nat) (s : Text) : Text := s.drop (s.length - count)

/-- What is reported of a tool that ran to its end. -/
def Ran.records (name : Text) (ran : Ran) : List Record :=
  if ran.code = 0 then []
  else
    let said := if ran.errors.isEmpty then ran.output else ran.errors
    [⟨.warning, name ++ " exited with " ++ Text.ofInt ran.code ++ ": " ++ lastPart 500 said⟩]

/-- Runs a command in a folder, for so long at most. -/
def run (command : List Json) (folder : Option Text) (limit : Option Seconds) : Task Ran := do
  Task.log .debug ("Running: " ++ (← Task.ofExcept (shownCommand command)))
  let arguments ← Task.ofExcept (handedOver command)
  let tool ← match arguments with
    | tool :: _ => pure tool
    | [] => Task.fail .noCommand
  let s ← Task.store
  match enter s folder with
  | .error e => Task.fail (startFault tool e)
  | .ok inside =>
    match program inside tool with
    | .error e => Task.fail (startFault tool e)
    | .ok p =>
      let name := (Path.ofText tool).name
      if ← Task.ofExcept (isLate limit p.ending) then
        match limit with
        | some limit => Task.fail (.tool (.timedOut name limit))
        | none => Task.fail .noCommand
      else
        Task.setStore (writeAll s p.writes)
        match p.ending with
        | .sleeping _ => pure ()
        | _ => modify fun w => { w with calls := w.calls ++ [⟨inside.workingDir, arguments⟩] }
        let output ← Task.ofExcept ((Utf8.decode p.output).mapError .undecodable)
        let errors ← Task.ofExcept ((Utf8.decode p.errors).mapError .undecodable)
        let ran : Ran := ⟨code p.ending, Text.universal output, Text.universal errors⟩
        Task.report (ran.records name)
        return ran

end Tool

end ClangDb

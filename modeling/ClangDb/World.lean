import ClangDb.Fault

/-! # The world of an operation

    An operation on a project runs on a host and in a world: the files, the
    records it has made so far and the tools it has called.  `Task` is an
    operation that ends with a value or a fault; what it did before a fault
    stays done.
-/

namespace ClangDb

/-- The values of the Windows registry, each at a key and a name. -/
abbrev Registry := List ((Text × Text) × Json)

/-- What an operation asks of the machine it runs on. -/
structure Host where
  platform : Platform
  /-- The home folder of the user. -/
  home : Text
  /-- The home folders of other users, by name. -/
  accounts : List (Text × Text)
  /-- The registry, where there is one. -/
  registry : Option Registry
  /-- The project that the server works on unless told otherwise. -/
  project : Text

/-- A tool that ran to its end: the folder it ran in, and its command. -/
structure Call where
  folder : Place
  command : List Text
  deriving DecidableEq, Repr

/-- What operations change. -/
structure World where
  store : Store
  records : List Record
  calls : List Call

/-- An operation. -/
abbrev Task (α : Type) := ExceptT Fault (StateM World) α

namespace Task

/-- Ends an operation with a fault. -/
def fail {α : Type} (e : Fault) : Task α := throw e

/-- A result that may be a fault. -/
def ofExcept {α : Type} (r : Except Fault α) : Task α := ExceptT.mk (pure r)

/-- The files. -/
def store : Task Store := do return (← get).store

/-- Changes the files. -/
def setStore (s : Store) : Task Unit := modify fun w => { w with store := s }

/-- Makes records. -/
def report (records : List Record) : Task Unit :=
  modify fun w => { w with records := w.records ++ records }

/-- Makes one record. -/
def log (level : Level) (message : Text) : Task Unit := report [⟨level, message⟩]

/-- The outcome of an operation as a value; what it did stays done. -/
def outcome {α : Type} (t : Task α) : Task (Except Fault α) :=
  ExceptT.mk fun w => let (r, w) := t.run w; (.ok r, w)

end Task

end ClangDb

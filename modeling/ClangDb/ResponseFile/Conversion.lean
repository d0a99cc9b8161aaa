import ClangDb.FileStore.Basic
import ClangDb.ResponseFile.Flag
import ClangDb.Text.Lines

/-! # Converted response files

    A response file of the build tool is read as text, cut into lines,
    converted line by line and written with one line feed after each line.
-/

namespace ClangDb

namespace ResponseFile

/-- There is no response file at a path. -/
structure Missing where
  path : Text
  deriving DecidableEq, Repr

/-- The sentence that reports a missing response file. -/
def Missing.message (e : Missing) : Text := "RSP file doesn't exist: " ++ e.path

/-- The conversion of a response file's bytes.  Bytes that are not UTF-8 become
    replacement characters. -/
def convertBytes (dialect : Dialect) (engineDir : Text) (bytes : List UInt8) : Text :=
  let lines := Text.lines (Text.universal (Utf8.decodeReplacing bytes))
  (convertLines dialect engineDir lines).flatMap (· ++ "\n")

/-- The conversion of the response file at a path. -/
def convert (s : Store) (dialect : Dialect) (engineDir path : Text) : Except Missing Text :=
  match s.find path with
  | .ok (.file bytes _) => .ok (convertBytes dialect engineDir bytes)
  | _ => .error ⟨path⟩

end ResponseFile

end ClangDb

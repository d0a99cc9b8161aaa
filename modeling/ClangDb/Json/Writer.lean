import ClangDb.Json.Basic

/-! # Writing JSON

    Written JSON is ASCII: every other code point is escaped by its UTF-16
    units.  A document is written on one line, or with one member a line and a
    fixed number of spaces for each level.
-/

namespace ClangDb

namespace Json

/-- The escape of one UTF-16 unit. -/
def escapeUnit (unit : Nat) : Text := "\\u" ++ hexDigits 4 unit

/-- One code point of a JSON string. -/
def writeUnit (c : CodePoint) : Text :=
  if c = .char '"' then "\\\""
  else if c = .char '\\' then "\\\\"
  else if c = .char '\n' then "\\n"
  else if c = .char '\r' then "\\r"
  else if c = .char '\t' then "\\t"
  else if c.toNat = 0x08 then "\\b"
  else if c.toNat = 0x0c then "\\f"
  else if 0x20 ≤ c.toNat ∧ c.toNat ≤ 0x7e then [c]
  else if c.toNat < 0x10000 then escapeUnit c.toNat
  else
    let offset := c.toNat - 0x10000
    escapeUnit (0xd800 + offset / 0x400) ++ escapeUnit (0xdc00 + offset % 0x400)

/-- A JSON string. -/
def writeString (s : Text) : Text := .char '"' :: s.flatMap writeUnit ++ [.char '"']

/-- How the numbers that are not finite are written. -/
def numberLayout : Binary64.Layout :=
  { Binary64.plainLayout with notANumber := "NaN", infinity := "Infinity" }

/-- Where a document is broken into lines. -/
inductive Format where
  /-- On one line. -/
  | oneLine
  /-- One member a line, so many spaces for each level. -/
  | indented (spaces : Nat)
  deriving DecidableEq, Repr

/-- What stands before an element at a level. -/
def Format.newline : Format → Nat → Text
  | .oneLine, _ => []
  | .indented spaces, level => .char '\n' :: List.replicate (spaces * level) (.char ' ')

/-- What stands between two elements at a level. -/
def Format.separator : Format → Nat → Text
  | .oneLine, _ => ", "
  | .indented spaces, level => .char ',' :: (Format.indented spaces).newline level

mutual

/-- Writes a value at a level. -/
def writeAt (f : Format) (level : Nat) : Json → Text
  | .null => "null"
  | .bool true => "true"
  | .bool false => "false"
  | .int n => Text.ofInt n
  | .number x => numberLayout.number x
  | .string s => writeString s
  | .array [] => "[]"
  | .array elements =>
    "[" ++ f.newline (level + 1) ++ writeElements f (level + 1) elements ++ f.newline level ++ "]"
  | .object [] => "\x7b\x7d"
  | .object members =>
    "\x7b" ++ f.newline (level + 1) ++ writeMembers f (level + 1) members ++ f.newline level
      ++ "\x7d"

/-- Writes elements at a level. -/
def writeElements (f : Format) (level : Nat) : List Json → Text
  | [] => []
  | [v] => writeAt f level v
  | v :: r => writeAt f level v ++ f.separator level ++ writeElements f level r

/-- Writes members at a level. -/
def writeMembers (f : Format) (level : Nat) : List (Text × Json) → Text
  | [] => []
  | [(k, v)] => writeString k ++ ": " ++ writeAt f level v
  | (k, v) :: r =>
    writeString k ++ ": " ++ writeAt f level v ++ f.separator level ++ writeMembers f level r

end

/-- Writes a document. -/
def write (f : Format) (value : Json) : Text := writeAt f 0 value

end Json

end ClangDb

import ClangDb.Json.Basic
import ClangDb.Number.Reading

/-! # Reading JSON

    A document is one value with blanks around it.  Beyond the standard,
    `NaN`, `Infinity` and `-Infinity` are numbers, and of two members with one
    key the last wins.  A refusal says what was expected and where: the place is
    kept as the length of what was still unread, which needs no counting while
    reading, and turned into line, column and offset at the end.
-/

namespace ClangDb

namespace Json

/-- What is wrong at a place of a document. -/
inductive Flaw where
  | value
  | propertyName
  | colon
  | comma
  | extraData
  | unterminated
  | controlCharacter
  | escape
  | unicodeEscape
  | byteOrderMark
  deriving DecidableEq, Repr

/-- The words for a flaw. -/
def Flaw.message : Flaw → Text
  | .value => "Expecting value"
  | .propertyName => "Expecting property name enclosed in double quotes"
  | .colon => "Expecting ':' delimiter"
  | .comma => "Expecting ',' delimiter"
  | .extraData => "Extra data"
  | .unterminated => "Unterminated string starting at"
  | .controlCharacter => "Invalid control character at"
  | .escape => "Invalid \\escape"
  | .unicodeEscape => "Invalid \\uXXXX escape"
  | .byteOrderMark => "Unexpected UTF-8 BOM (decode using utf-8-sig)"

/-- The two kinds of value that hold others. -/
inductive Container where
  | array
  | object
  deriving DecidableEq, Repr

/-- Why reading stopped. -/
inductive Stop where
  /-- The document is malformed where so many code points were unread. -/
  | malformed (flaw : Flaw) (unread : Nat)
  /-- An integer has too many digits. -/
  | tooLong (digits : Nat)
  /-- Containers are nested too deeply. -/
  | tooDeep (container : Container)
  deriving DecidableEq, Repr

/-- A reader gives a value and what follows it. -/
abbrev Reader (α : Type) := Text → Except Stop (α × Text)

/-- Stops at the head of what is unread. -/
def stop {α : Type} (flaw : Flaw) (unread : Text) : Except Stop α :=
  .error (.malformed flaw unread.length)

/-- Whether a code point may stand between two tokens. -/
def isSpace (c : CodePoint) : Bool :=
  c = .char ' ' || c = .char '\t' || c = .char '\n' || c = .char '\r'

/-- Passes over blanks. -/
def skip (s : Text) : Text := s.dropWhile isSpace

/-! ### Strings -/

/-- The number written by hexadecimal digits. -/
def hex? (digits : Text) : Option Nat := Number.natOf? 16 digits

/-- The code point of a UTF-16 unit that stands alone. -/
def unit (n : Nat) : CodePoint := (CodePoint.ofNat? n).getD (.char '\ufffd')

/-- The character that a high and a low surrogate write together. -/
def joined (high low : Nat) : CodePoint :=
  unit (0x10000 + (high - 0xd800) * 0x400 + (low - 0xdc00))

/-- The code point that a one-letter escape writes. -/
def simpleEscape? (c : CodePoint) : Option CodePoint :=
  if c = .char '"' ∨ c = .char '\\' ∨ c = .char '/' then some c
  else if c = .char 'b' then some (.char '\x08')
  else if c = .char 'f' then some (.char '\x0c')
  else if c = .char 'n' then some (.char '\n')
  else if c = .char 'r' then some (.char '\r')
  else if c = .char 't' then some (.char '\t')
  else none

/-- What follows the digits of a high surrogate. -/
inductive AfterHigh where
  /-- The escape of a low surrogate. -/
  | low (n : Nat)
  /-- An escape whose digits are malformed, from its letter on. -/
  | malformed (unread : Text)
  /-- Anything else. -/
  | other
  deriving DecidableEq, Repr

/-- Looks for the second half of a surrogate pair.  Its six code points have to
    be followed by another, as the string is still to be closed. -/
def afterHigh : Text → AfterHigh
  | .char '\\' :: .char 'u' :: a :: b :: c :: d :: e :: r =>
    match hex? [a, b, c, d] with
    | none => .malformed (.char 'u' :: a :: b :: c :: d :: e :: r)
    | some n => if 0xdc00 ≤ n ∧ n ≤ 0xdfff then .low n else .other
  | _ => .other

/-- Reads an escape after its backslash: a code point, and the number of code
    points that write it, the backslash included. -/
def readEscape (opened : Nat) (s : Text) : Except Stop (CodePoint × Nat) :=
  match s with
  | [] => .error (.malformed .unterminated opened)
  | .char 'u' :: a :: b :: c :: d :: e :: r =>
    match hex? [a, b, c, d] with
    | none => stop .unicodeEscape s
    | some n =>
      if 0xd800 ≤ n ∧ n ≤ 0xdbff then
        match afterHigh (e :: r) with
        | .low m => .ok (joined n m, 12)
        | .malformed unread => stop .unicodeEscape unread
        | .other => .ok (unit n, 6)
      else .ok (unit n, 6)
  | .char 'u' :: _ => stop .unicodeEscape s
  | c :: _ =>
    match simpleEscape? c with
    | some c => .ok (c, 2)
    | none => stop .escape (.char '\\' :: s)

/-- Reads one code point of a string: its value, and the number of code points
    that write it. -/
def readUnit (opened : Nat) (c : CodePoint) (r : Text) : Except Stop (CodePoint × Nat) :=
  if c = .char '\\' then readEscape opened r
  else if c.toNat < 0x20 then stop .controlCharacter (c :: r)
  else .ok (c, 1)

/-- Reads a string up to its closing quote, after `passed` code points that a
    unit already used; `opened` is the length of what was unread at the opening
    quote. -/
def readString (opened : Nat) : (passed : Nat) → Reader Text
  | _, [] => .error (.malformed .unterminated opened)
  | passed + 1, _ :: r => readString opened passed r
  | 0, c :: r =>
    if c = .char '"' then .ok ([], r)
    else match readUnit opened c r with
      | .error e => .error e
      | .ok (value, width) =>
        match readString opened (width - 1) r with
        | .error e => .error e
        | .ok (value', rest) => .ok (value :: value', rest)

/-! ### Numbers -/

/-- The digits at the head, and the rest. -/
def digits (s : Text) : Text × Text := s.span Number.isAsciiDigit

/-- The exponent at the head with its letter, if it is complete. -/
def exponentPart : Text → Text × Text
  | .char x :: r =>
    if x = 'e' ∨ x = 'E' then
      let (sign, r') : Text × Text := match r with
        | .char '+' :: more => ([.char '+'], more)
        | .char '-' :: more => ([.char '-'], more)
        | _ => ([], r)
      match digits r' with
      | ([], _) => ([], .char x :: r)
      | (ds, rest) => (CodePoint.char x :: sign ++ ds, rest)
    else ([], .char x :: r)
  | s => ([], s)

/-- The point and the digits after it, if there are any. -/
def fractionPart : Text → Text × Text
  | .char '.' :: r =>
    match digits r with
    | ([], _) => ([], CodePoint.char '.' :: r)
    | (ds, rest) => (CodePoint.char '.' :: ds, rest)
  | s => ([], s)

/-- Reads a number: an integer, unless a fraction or an exponent follows. -/
def readNumber (s : Text) : Except Stop (Json × Text) :=
  let (negative, r) := match s with
    | .char '-' :: r => (true, r)
    | r => (false, r)
  let (whole, r) : Text × Text := match r with
    | .char '0' :: r => ([.char '0'], r)
    | r => digits r
  if whole.isEmpty then stop .value s
  else
    let (fraction, r) := fractionPart r
    let (exponent, r) := exponentPart r
    if fraction.isEmpty && exponent.isEmpty then
      match Number.decimalInteger negative whole with
      | some (.ok n) => .ok (.int n, r)
      | some (.error _) => .error (.tooLong whole.length)
      | none => stop .value s
    else match Number.decimal? negative (whole ++ fraction ++ exponent) with
      | some x => .ok (.number x, r)
      | none => stop .value s

/-! ### Values -/

/-- The greatest depth to which containers are nested. -/
def depthLimit : Nat := 990

/-- The words that are values. -/
def words : List (Text × Json) := [
  ("null", .null), ("true", .bool true), ("false", .bool false),
  ("NaN", .number .nan), ("Infinity", .number (.infinite false)),
  ("-Infinity", .number (.infinite true))]

/-- The value of the word at the head. -/
def readWord? (s : Text) : Option (Json × Text) :=
  words.findSome? fun (word, value) => (Text.dropStart? word s).map fun rest => (value, rest)

mutual

/-- Reads a value.  Each call passes over a code point or hands on to a reader
    that does, so twice the length of the text is fuel enough. -/
def readValue : (fuel depth : Nat) → Reader Json
  | 0, _, s => stop .value s
  | fuel + 1, depth, s =>
    match s with
    | .char '"' :: r =>
      match readString s.length 0 r with
      | .error e => .error e
      | .ok (value, rest) => .ok (.string value, rest)
    | .char '[' :: r =>
      match depth with
      | 0 => .error (.tooDeep .array)
      | depth + 1 =>
        match skip r with
        | .char ']' :: rest => .ok (.array [], rest)
        | r =>
          match readElements fuel depth r with
          | .error e => .error e
          | .ok (elements, rest) => .ok (.array elements, rest)
    | .char '{' :: r =>
      match depth with
      | 0 => .error (.tooDeep .object)
      | depth + 1 =>
        match skip r with
        | .char '}' :: rest => .ok (.object [], rest)
        | r =>
          match readMembers fuel depth r with
          | .error e => .error e
          | .ok (members, rest) => .ok (.object (collect members), rest)
    | _ =>
      match readWord? s with
      | some found => .ok found
      | none => readNumber s

/-- Reads the elements of a non-empty array and its closing bracket. -/
def readElements : (fuel depth : Nat) → Reader (List Json)
  | 0, _, s => stop .value s
  | fuel + 1, depth, s =>
    match readValue fuel depth s with
    | .error e => .error e
    | .ok (value, r) =>
      match skip r with
      | .char ']' :: rest => .ok ([value], rest)
      | .char ',' :: r =>
        match readElements fuel depth (skip r) with
        | .error e => .error e
        | .ok (values, rest) => .ok (value :: values, rest)
      | r => stop .comma r

/-- Reads the members of a non-empty object and its closing brace. -/
def readMembers : (fuel depth : Nat) → Reader (List (Text × Json))
  | 0, _, s => stop .value s
  | fuel + 1, depth, s =>
    match s with
    | .char '"' :: r =>
      match readString s.length 0 r with
      | .error e => .error e
      | .ok (key, r) =>
        match skip r with
        | .char ':' :: r =>
          match readValue fuel depth (skip r) with
          | .error e => .error e
          | .ok (value, r) =>
            match skip r with
            | .char '}' :: rest => .ok ([(key, value)], rest)
            | .char ',' :: r =>
              match readMembers fuel depth (skip r) with
              | .error e => .error e
              | .ok (members, rest) => .ok ((key, value) :: members, rest)
            | r => stop .comma r
        | r => stop .colon r
    | _ => stop .propertyName s

end

/-! ### Documents -/

/-- Why a document was refused. -/
inductive ReadError where
  /-- The document is malformed at a place, counted from one by line and column
      and from zero by offset. -/
  | malformed (flaw : Flaw) (line column offset : Nat)
  | tooLong (digits : Nat)
  | tooDeep (container : Container)
  deriving DecidableEq, Repr

/-- The sentence that reports a refusal. -/
def ReadError.message : ReadError → Text
  | .malformed flaw line column offset =>
    flaw.message ++ ": line " ++ Text.ofNat line ++ " column " ++ Text.ofNat column
      ++ " (char " ++ Text.ofNat offset ++ ")"
  | .tooLong digits => (Number.IntegerError.tooLong digits).message
  | .tooDeep container =>
    "maximum recursion depth exceeded while decoding a JSON "
      ++ (match container with
        | .array => "array"
        | .object => "object")
      ++ " from a unicode string"

/-- The place in a document before which so much of it has been read. -/
def placeOf (document : Text) (offset : Nat) : Nat × Nat :=
  let read := document.take offset
  let isLineFeed := fun c : CodePoint => c = .char '\n'
  (read.countP isLineFeed + 1, (read.reverse.takeWhile (!isLineFeed ·)).length + 1)

/-- Turns the length of what was unread into a place. -/
def Stop.locate (document : Text) : Stop → ReadError
  | .malformed flaw unread =>
    let offset := document.length - unread
    let (line, column) := placeOf document offset
    .malformed flaw line column offset
  | .tooLong digits => .tooLong digits
  | .tooDeep container => .tooDeep container

/-- Reads a value with blanks around it up to the end of the text. -/
def readDocument (s : Text) : Except Stop Json :=
  match s with
  | .char '\ufeff' :: _ => stop .byteOrderMark s
  | _ =>
    match readValue (2 * s.length + 2) depthLimit (skip s) with
    | .error e => .error e
    | .ok (value, r) =>
      match skip r with
      | [] => .ok value
      | r => stop .extraData r

/-- Reads a document. -/
def read (s : Text) : Except ReadError Json := (readDocument s).mapError (Stop.locate s)

end Json

end ClangDb

import ClangDb.Number.Binary64
import ClangDb.Text.Blank
import ClangDb.Text.Digit
import ClangDb.Text.Quoted

/-! # Reading numbers from text

    A number may be surrounded by white space, carry a sign and separate digits
    by single underscores.  Decimal digits of every script count.  A text of
    ASCII characters alone may be surrounded by plain blanks only; in any other
    text the white space beyond ASCII counts as well.
-/

namespace ClangDb

namespace Number

/-- The text with foreign digits and blanks written in ASCII. -/
def toAscii (s : Text) : Text :=
  s.map fun c =>
    if c.toNat < 127 then c
    else if c.isBlank then .char ' '
    else match c.digit? with
      | some d => .char (Nat.digitChar d)
      | none => c

/-- The text in ASCII, without the blanks at its ends. -/
def core (s : Text) : Text := (toAscii s).trimBoth CodePoint.isPlainBlank

/-- Whether a code point is an ASCII digit. -/
def isAsciiDigit (c : CodePoint) : Bool := 0x30 ≤ c.toNat && c.toNat ≤ 0x39

/-- Removes the underscores, each of which has to stand between two digits. -/
def withoutUnderscores? (isDigit : CodePoint → Bool) : (afterDigit : Bool) → Text → Option Text
  | _, [] => some []
  | afterDigit, c :: r =>
    if c = .char '_' then
      if afterDigit && (r.head?.map isDigit).getD false then withoutUnderscores? isDigit false r
      else none
    else (withoutUnderscores? isDigit (isDigit c) r).map (c :: ·)

/-- A sign and what follows it. -/
def sign : Text → Bool × Text
  | .char '-' :: r => (true, r)
  | .char '+' :: r => (false, r)
  | s => (false, s)

/-- The value of a digit in bases up to 36. -/
def digitValue? (c : CodePoint) : Option Nat :=
  let n := c.toNat
  if 0x30 ≤ n && n ≤ 0x39 then some (n - 0x30)
  else if 0x61 ≤ n && n ≤ 0x7a then some (n - 0x61 + 10)
  else if 0x41 ≤ n && n ≤ 0x5a then some (n - 0x41 + 10)
  else none

/-- The value of a run of digits below `base`. -/
def natOf? (base : Nat) (s : Text) : Option Nat :=
  s.foldl (fun value c => do
    let v ← value
    let d ← digitValue? c
    if d < base then some (v * base + d) else none) (some 0)

/-! ### Integers -/

/-- The greatest number of digits of an integer that is read in base ten. -/
def digitLimit : Nat := 4300

/-- Why a text is not an integer. -/
inductive IntegerError where
  /-- The text is not of the form of an integer. -/
  | malformed (base : Nat) (text : Text)
  /-- The integer has more digits than are read. -/
  | tooLong (digits : Nat)
  deriving DecidableEq, Repr

/-- The sentence that reports a text that is not an integer; the text is shown
    up to its first 200 characters. -/
def IntegerError.message : IntegerError → Text
  | .malformed base text =>
    "invalid literal for int() with base " ++ Text.ofNat base ++ ": " ++ text.quoted.take 200
  | .tooLong digits =>
    "Exceeds the limit (" ++ Text.ofNat digitLimit
      ++ " digits) for integer string conversion: value has " ++ Text.ofNat digits
      ++ " digits; use sys.set_int_max_str_digits() to increase the limit"

/-- Reads digits of base ten after a sign. -/
def decimalInteger (negative : Bool) (digits : Text) : Option (Except IntegerError Int) := do
  let value ← natOf? 10 digits
  if digits.isEmpty then none
  else if digitLimit < digits.length then some (.error (.tooLong digits.length))
  else some (.ok (if negative then -value else value))

/-- Reads an integer in base ten. -/
def integer (s : Text) : Except IntegerError Int :=
  let (negative, body) := sign (core s)
  let read := do decimalInteger negative (← withoutUnderscores? isAsciiDigit false body)
  read.getD (.error (.malformed 10 s))

/-- Whether a code point is a digit in base sixteen. -/
def isHexDigit (c : CodePoint) : Bool := ((digitValue? c).map (decide <| · < 16)).getD false

/-- Whether a text is an integer in base sixteen; it may begin with `0x`, which a
    single underscore may follow. -/
def isHexadecimal (s : Text) : Bool :=
  let body := (sign (core s)).2
  let body := match body with
    | .char '0' :: .char x :: r =>
      if x = 'x' ∨ x = 'X' then
        match r with
        | .char '_' :: more => more
        | _ => r
      else body
    | _ => body
  match withoutUnderscores? isHexDigit false body with
  | some digits => !digits.isEmpty && digits.all isHexDigit
  | none => false

/-! ### Fractions -/

/-- The lower-case form of an ASCII letter. -/
def lower : CodePoint → CodePoint
  | .char c => .char c.toLower
  | c => c

/-- Reads digits with an optional point, and an optional exponent. -/
def decimal? (negative : Bool) (s : Text) : Option Binary64 := do
  let whole := s.takeWhile isAsciiDigit
  let rest := s.dropWhile isAsciiDigit
  let (fraction, rest) := match rest with
    | .char '.' :: r => (r.takeWhile isAsciiDigit, r.dropWhile isAsciiDigit)
    | r => ([], r)
  if whole.isEmpty && fraction.isEmpty then none
  let digits ← natOf? 10 (whole ++ fraction)
  let places : Int := fraction.length
  match rest with
  | [] => some (.ofDecimal negative digits (-places))
  | e :: r =>
    if lower e ≠ .char 'e' then none
    let (below, exponent) := sign r
    if exponent.isEmpty || !exponent.all isAsciiDigit then none
    let n ← natOf? 10 exponent
    let n : Int := if below then -n else n
    some (.ofDecimal negative digits (n - places))

/-- Reads a number: a decimal, an infinity or `nan` in any case. -/
def fraction? (s : Text) : Option Binary64 := do
  let body ← withoutUnderscores? isAsciiDigit false (core s)
  let (negative, magnitude) := sign body
  let word := magnitude.map lower
  if word = ("inf" : Text) ∨ word = ("infinity" : Text) then some (.infinite negative)
  else if word = ("nan" : Text) then some .nan
  else decimal? negative magnitude

end Number

end ClangDb

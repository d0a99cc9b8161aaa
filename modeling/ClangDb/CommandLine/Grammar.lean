import ClangDb.Json.Basic
import ClangDb.Number.Reading

/-! # Reading a command line

    A grammar lists flags and perhaps one operand.  An argument is first given a
    role by its spelling alone: a flag, the mark `--` after which all arguments
    are operands, or an operand.  A flag may be abbreviated where its beginning
    is unambiguous, and may carry its value after an equals sign.  Arguments are
    then taken from left to right; those that fit nowhere are left over.
-/

namespace ClangDb

namespace CommandLine

/-! ### Grammars -/

/-- What a flag takes. -/
inductive Kind where
  /-- Shows the help and ends. -/
  | help
  /-- Nothing; the flag itself says yes. -/
  | switch
  | text
  | integer
  | fraction
  | choice (names : List Text)
  deriving DecidableEq, Repr

/-- A flag of a grammar. -/
structure Flag where
  /-- Its spellings, each with its dashes. -/
  names : List Text
  /-- The name of its value. -/
  key : Text
  kind : Kind
  required : Bool
  /-- Its value unless it is given. -/
  usual : Json
  deriving Repr

/-- The flags and the operand of a command.  A flag of one letter takes no
    value. -/
structure Grammar where
  /-- What complaints begin with. -/
  program : Text
  flags : List Flag
  /-- The name of the operand, if there is one; it is required. -/
  operand : Option Text
  /-- Whether flags with two dashes may be abbreviated. -/
  abbreviates : Bool
  deriving Repr

/-- What is wrong with a command line. -/
inductive Complaint where
  | ambiguous (argument : Text) (matching : List Text)
  | ignoredValue (flag : Text) (value : Text)
  | expectedOne (flag : Text)
  | invalidInteger (flag : Text) (value : Text)
  | invalidFraction (flag : Text) (value : Text)
  | invalidChoice (name : Text) (value : Text) (choices : List Text)
  | required (names : List Text)
  | unrecognized (arguments : List Text)
  deriving DecidableEq, Repr

/-- The sentence of a complaint. -/
def Complaint.message : Complaint → Text
  | .ambiguous argument matching =>
    "ambiguous option: " ++ argument ++ " could match " ++ Text.join ", " matching
  | .ignoredValue flag value =>
    "argument " ++ flag ++ ": ignored explicit argument " ++ value.quoted
  | .expectedOne flag => "argument " ++ flag ++ ": expected one argument"
  | .invalidInteger flag value =>
    "argument " ++ flag ++ ": invalid int value: " ++ value.quoted
  | .invalidFraction flag value =>
    "argument " ++ flag ++ ": invalid float value: " ++ value.quoted
  | .invalidChoice name value choices =>
    "argument " ++ name ++ ": invalid choice: " ++ value.quoted ++ " (choose from "
      ++ Text.join ", " (choices.map Text.quoted) ++ ")"
  | .required names => "the following arguments are required: " ++ Text.join ", " names
  | .unrecognized arguments => "unrecognized arguments: " ++ Text.join " " arguments

/-- Why reading ended before its end. -/
inductive Exit where
  | help
  | complaint (program : Text) (what : Complaint)
  deriving DecidableEq, Repr

/-- The last line that is shown on an exit. -/
def Exit.line : Exit → Option Text
  | .help => none
  | .complaint program what => some (program ++ ": error: " ++ what.message)

/-- The exit code. -/
def Exit.code : Exit → Nat
  | .help => 0
  | .complaint _ _ => 2

/-- The name of a flag in complaints. -/
def Flag.title (f : Flag) : Text := Text.join "/" f.names

/-- Whether a flag takes no value. -/
def Flag.isBare (f : Flag) : Bool := f.kind = .help ∨ f.kind = .switch

/-! ### Roles -/

/-- A value that is written together with its flag. -/
inductive Attached where
  /-- After an equals sign. -/
  | equals (value : Text)
  /-- Directly after a flag of one letter. -/
  | letters (value : Text)
  deriving DecidableEq, Repr

/-- The role of an argument. -/
inductive Role where
  | operand
  /-- The first `--`. -/
  | mark
  /-- A flag in one of its spellings, perhaps with a value. -/
  | flag (f : Flag) (name : Text) (attached : Option Attached)
  /-- A flag that the grammar does not have. -/
  | unknown
  deriving Repr

/-- The flag with a spelling. -/
def Grammar.flag? (g : Grammar) (name : Text) : Option Flag :=
  g.flags.find? fun f => f.names.contains name

/-- All spellings of all flags. -/
def Grammar.spellings (g : Grammar) : List (Text × Flag) :=
  g.flags.flatMap fun f => f.names.map fun name => (name, f)

/-- An argument cut at its first equals sign. -/
def cutEquals (argument : Text) : Text × Option Text :=
  match Text.cut? "=" argument with
  | some (name, value) => (name, some value)
  | none => (argument, none)

/-- Digits at the end of a text, which a line feed may follow. -/
def endsInDigits (s : Text) : Bool :=
  match s.span CodePoint.isDigit with
  | ([], _) => false
  | (_, rest) => rest = [] || rest = ("\n" : Text)

/-- Whether an argument looks like a negative number. -/
def isNegativeNumber : Text → Bool
  | .char '-' :: r =>
    endsInDigits r || match r.dropWhile CodePoint.isDigit with
      | .char '.' :: fraction => endsInDigits fraction
      | _ => false
  | _ => false

/-- The flags that an argument with two dashes abbreviates. -/
def Grammar.abbreviated (g : Grammar) (argument : Text) : List Role :=
  let (start, value) := cutEquals argument
  (g.spellings.filter fun (name, _) => name.startsWith start).map fun (name, f) =>
    .flag f name (value.map .equals)

/-- The flags of one letter that an argument begins with. -/
def Grammar.lettered (g : Grammar) (argument : Text) : List Role :=
  g.spellings.filterMap fun (name, f) =>
    if name = argument.take 2 then some (.flag f name (some (.letters (argument.drop 2))))
    else if name.startsWith argument then some (.flag f name none)
    else none

/-- The flags that an argument may stand for. -/
def Grammar.readings (g : Grammar) (argument : Text) : List Role :=
  if argument.startsWith "--" then if g.abbreviates then g.abbreviated argument else []
  else g.lettered argument

/-- The spelling in a role. -/
def Role.name : Role → Text
  | .flag _ name _ => name
  | _ => []

/-- The role of an argument that is spelled like a flag. -/
def Grammar.spelledRole (g : Grammar) (argument : Text) : Except Complaint Role :=
  match g.readings argument with
  | [role] => .ok role
  | [] =>
    if isNegativeNumber argument || argument.contains " " then .ok .operand else .ok .unknown
  | roles => .error (.ambiguous argument (roles.map Role.name))

/-- The role of an argument before the mark. -/
def Grammar.role (g : Grammar) (argument : Text) : Except Complaint Role :=
  if !argument.startsWith "-" || argument.length = 1 then .ok .operand
  else match g.flag? argument with
    | some f => .ok (.flag f argument none)
    | none =>
      match cutEquals argument with
      | (name, some value) =>
        match g.flag? name with
        | some f => .ok (.flag f name (some (.equals value)))
        | none => g.spelledRole argument
      | _ => g.spelledRole argument

/-- Arguments with their roles. -/
abbrev Roles := List (Text × Role)

/-- Gives each argument its role. -/
def Grammar.roles (g : Grammar) : List Text → Except Complaint Roles
  | [] => .ok []
  | argument :: more =>
    if argument = ("--" : Text) then
      .ok ((argument, .mark) :: more.map fun argument => (argument, .operand))
    else do
      let role ← g.role argument
      return (argument, role) :: (← g.roles more)

/-! ### Values -/

/-- Reads the value of a flag. -/
def Flag.read (f : Flag) (value : Text) : Except Complaint Json :=
  match f.kind with
  | .integer =>
    match Number.integer value with
    | .ok n => .ok (.int n)
    | .error _ => .error (.invalidInteger f.title value)
  | .fraction =>
    match Number.fraction? value with
    | some x => .ok (.number x)
    | none => .error (.invalidFraction f.title value)
  | .choice names =>
    if names.contains value then .ok (.string value)
    else .error (.invalidChoice f.title value names)
  | _ => .ok (.string value)

/-- What has been read: the values of flags and operand, and what is left over. -/
structure Reading where
  values : List (Text × Json)
  given : List Text
  left : List Text
  deriving Repr

/-- The reading with a value set. -/
def Reading.set (r : Reading) (key : Text) (value : Json) : Reading :=
  { r with values := Json.setMember key value r.values, given := key :: r.given }

/-- The reading with arguments left over. -/
def Reading.leave (r : Reading) (arguments : List Text) : Reading :=
  { r with left := r.left ++ arguments }

/-! ### Taking arguments -/

/-- Why taking an argument ends the reading. -/
inductive Halt where
  | help
  | complaint (what : Complaint)
  deriving DecidableEq, Repr

/-- Takes a flag without a value. -/
def takeBare (r : Reading) (f : Flag) : Except Halt Reading :=
  if f.kind = .help then .error .help else .ok (r.set f.key (.bool true))

/-- Takes a flag of one letter together with the letters after it.  Those are
    flags of one letter as well, as far as the grammar has them; a letter that it
    has not is left over with what follows it. -/
def takeLetters (g : Grammar) (r : Reading) (f : Flag) : Text → Except Halt Reading
  | [] => takeBare r f
  | c :: more =>
    if c = .char '-' then .error (.complaint (.ignoredValue f.title (c :: more)))
    else match g.flag? [.char '-', c] with
      | none => takeBare (r.leave [.char '-' :: c :: more]) f
      | some next =>
        match more with
        | .char '=' :: value => .error (.complaint (.ignoredValue next.title value))
        | _ =>
          match takeLetters g r next more with
          | .ok r => takeBare r f
          | .error e => .error e

/-- Takes a flag with its value. -/
def takeValue (r : Reading) (f : Flag) (value : Text) : Except Halt Reading :=
  match f.read value with
  | .ok value => .ok (r.set f.key value)
  | .error e => .error (.complaint e)

/-- Takes a flag, and the argument after it if that is its value. -/
def takeFlag (g : Grammar) (r : Reading) (f : Flag) (attached : Option Attached) (rest : Roles) :
    Except Halt (Reading × Roles) :=
  if f.isBare then
    match attached with
    | none => (takeBare r f).map fun r => (r, rest)
    | some (.letters value) => (takeLetters g r f value).map fun r => (r, rest)
    | some (.equals value) => .error (.complaint (.ignoredValue f.title value))
  else match attached with
    | some (.equals value) | some (.letters value) =>
      (takeValue r f value).map fun r => (r, rest)
    | none =>
      match rest with
      | (value, .operand) :: more => (takeValue r f value).map fun r => (r, more)
      | _ => .error (.complaint (.expectedOne f.title))

/-- Whether an argument is neither a flag nor spelled like one. -/
def isPlain (argument : Text × Role) : Bool :=
  match argument.2 with
  | .operand | .mark => true
  | _ => false

/-- The operand at the head, the mark beside it dropped, and the rest. -/
def operandAtHead? : Roles → Option (Text × Roles)
  | (_, .mark) :: (value, .operand) :: more => some (value, more)
  | (value, .operand) :: (_, .mark) :: more => some (value, more)
  | (value, .operand) :: more => some (value, more)
  | _ => none

/-- Takes the operand at the head, if the grammar still wants one. -/
def takeOperand? (g : Grammar) (r : Reading) (rest : Roles) : Option (Reading × Roles) := do
  let key ← g.operand
  if r.given.contains key then none
  let (value, more) ← operandAtHead? rest
  return (r.set key (.string value), more)

/-- Takes arguments from left to right.  Each step takes one at least, so their
    number is fuel enough. -/
def takeAll (g : Grammar) : (fuel : Nat) → Reading → Roles → Except Halt Reading
  | 0, r, _ => .ok r
  | fuel + 1, r, arguments =>
    match arguments with
    | [] => .ok r
    | (argument, role) :: rest =>
      match role with
      | .unknown => takeAll g fuel (r.leave [argument]) rest
      | .flag f _ attached =>
        match takeFlag g r f attached rest with
        | .ok (r, rest) => takeAll g fuel r rest
        | .error e => .error e
      | _ =>
        match takeOperand? g r arguments with
        | some (r, rest) => takeAll g fuel r rest
        | none =>
          takeAll g fuel (r.leave ((arguments.takeWhile isPlain).map (·.1)))
            (arguments.dropWhile isPlain)

/-- What a command line must have and lacks. -/
def Grammar.missing (g : Grammar) (r : Reading) : List Text :=
  let help := g.flags.filter fun f => f.kind = .help
  let others := g.flags.filter fun f => f.kind ≠ .help
  let absent := fun f : Flag => f.required && !r.given.contains f.key
  (help.filter absent).map Flag.title
    ++ (g.operand.toList.filter fun key => !r.given.contains key)
    ++ (others.filter absent).map Flag.title

/-- The values before anything is read. -/
def Grammar.initial (g : Grammar) : Reading where
  values := ((g.flags.filter fun f => f.kind ≠ .help).map fun f => (f.key, f.usual))
    ++ (g.operand.toList.map fun key => (key, .null))
  given := []
  left := []

/-- Reads the arguments of a command. -/
def Grammar.read (g : Grammar) (arguments : List Text) : Except Exit Reading := do
  let complain := Exit.complaint g.program
  let roles ← (g.roles arguments).mapError complain
  let reading ← match takeAll g (roles.length + 1) g.initial roles with
    | .ok r => pure r
    | .error .help => throw .help
    | .error (.complaint e) => throw (complain e)
  match g.missing reading with
  | [] => return reading
  | names => throw (complain (.required names))

end CommandLine

end ClangDb

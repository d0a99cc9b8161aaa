import ClangDb.Number.Shortest
import ClangDb.Text.Quoted

/-! # JSON values

    Configurations and project files are JSON.  Integers and fractions are
    distinct, and the members of an object keep the order in which their keys
    first appeared.  A value that stands where another type was expected is used
    as it is, so the operations below are defined on every value: truth, the
    name of the kind, and the form in which a message shows the value.
-/

namespace ClangDb

/-- A JSON value. -/
inductive Json where
  | null
  | bool (b : Bool)
  | int (n : Int)
  | number (x : Binary64)
  | string (s : Text)
  | array (elements : List Json)
  | object (members : List (Text × Json))
  deriving Repr, Inhabited

namespace Json

instance : Coe Text Json := ⟨.string⟩

/-- An object of members with fixed keys. -/
def ofFields (fields : List (String × Json)) : Json :=
  .object (fields.map fun (key, value) => (Text.ofString key, value))

/-! ### Members -/

/-- Sets the member at a key: in its place if the key is there, else at the end. -/
def setMember (key : Text) (value : Json) : List (Text × Json) → List (Text × Json)
  | [] => [(key, value)]
  | (k, v) :: r => if k = key then (k, value) :: r else (k, v) :: setMember key value r

/-- The members of an object whose last writer wins. -/
def collect (members : List (Text × Json)) : List (Text × Json) :=
  members.foldl (fun seen (key, value) => setMember key value seen) []

/-- The member at a key. -/
def member? (key : Text) : List (Text × Json) → Option Json
  | [] => none
  | (k, v) :: r => if k = key then some v else member? key r

/-- The member of an object at a key. -/
def get? (value : Json) (key : Text) : Option Json :=
  match value with
  | .object members => member? key members
  | _ => none

/-! ### Truth and kind -/

/-- Whether a value counts as present: not null, false, zero or empty. -/
def isTrue : Json → Bool
  | .null => false
  | .bool b => b
  | .int n => n ≠ 0
  | .number x => !x.isZero
  | .string s => !s.isEmpty
  | .array elements => !elements.isEmpty
  | .object members => !members.isEmpty

/-- The name of a value's kind in messages. -/
def kind : Json → Text
  | .null => "NoneType"
  | .bool _ => "bool"
  | .int _ => "int"
  | .number _ => "float"
  | .string _ => "str"
  | .array _ => "list"
  | .object _ => "dict"

/-! ### Showing a value -/

mutual

/-- A value as a message shows it. -/
def shown : Json → Text
  | .null => "None"
  | .bool true => "True"
  | .bool false => "False"
  | .int n => Text.ofInt n
  | .number x => x.render
  | .string s => s.quoted
  | .array elements => "[" ++ shownElements elements ++ "]"
  | .object members => "\x7b" ++ shownMembers members ++ "\x7d"

/-- Elements with a comma and a space between two. -/
def shownElements : List Json → Text
  | [] => []
  | [v] => shown v
  | v :: r => shown v ++ ", " ++ shownElements r

/-- Members with a comma and a space between two. -/
def shownMembers : List (Text × Json) → Text
  | [] => []
  | [(k, v)] => k.quoted ++ ": " ++ shown v
  | (k, v) :: r => k.quoted ++ ": " ++ shown v ++ ", " ++ shownMembers r

end

/-- A value inside a sentence: a text as it is, any other value as it is shown. -/
def plain : Json → Text
  | .string s => s
  | v => v.shown

end Json

end ClangDb

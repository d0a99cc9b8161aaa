import ClangDb.Text.Basic

/-! # Paths as lists of names

    A path is an anchor and a list of names.  Empty names and single dots drop
    out when a path is read; two dots stay, since what they mean is decided by
    the file store.  An anchor of exactly two slashes is kept apart from the
    root.
-/

namespace ClangDb

/-- Where a path starts. -/
inductive Anchor where
  | relative
  | root
  | doubleRoot
  deriving DecidableEq, Repr, Inhabited

/-- A path in its lexical normal form. -/
structure Path where
  anchor : Anchor
  names : List Text
  deriving DecidableEq, Repr, Inhabited

namespace Path

/-- The text of an anchor. -/
def anchorText : Anchor → Text
  | .relative => []
  | .root => "/"
  | .doubleRoot => "//"

/-- The names between slashes, without empty ones and single dots. -/
def namesOf (s : Text) : List Text :=
  (Text.splitAt '/' s).filter fun name => name ≠ [] ∧ name ≠ ("." : Text)

/-- Reads a path. -/
def ofText (s : Text) : Path :=
  let anchor : Anchor := match (s.takeWhile (· = .char '/')).length with
    | 0 => .relative
    | 2 => .doubleRoot
    | _ => .root
  ⟨anchor, namesOf s⟩

/-- Writes a path; the empty relative path is a dot. -/
def toText (p : Path) : Text :=
  match p.anchor, p.names with
  | .relative, [] => "."
  | anchor, names => anchorText anchor ++ Text.join "/" names

/-- The path that another path denotes beside this one; an anchored path
    replaces what precedes it. -/
def append (p q : Path) : Path :=
  match q.anchor with
  | .relative => ⟨p.anchor, p.names ++ q.names⟩
  | _ => q

/-- The path of a text beside this one. -/
def join (p : Path) (s : Text) : Path := p.append (ofText s)

/-- The path without its last name; an anchor is its own parent. -/
def parent (p : Path) : Path := ⟨p.anchor, p.names.dropLast⟩

/-- The last name. -/
def name (p : Path) : Text := p.names.getLast?.getD []

/-- The last name's stem and suffix.  A dot at either end of the name begins no
    suffix. -/
def splitName (p : Path) : Text × Text :=
  match p.name.cutLast? '.' with
  | some (stem, after) =>
    if stem.isEmpty || after.isEmpty then (p.name, []) else (stem, .char '.' :: after)
  | none => (p.name, [])

/-- The last name without its suffix. -/
def stem (p : Path) : Text := p.splitName.1

/-- The last dot of the last name and what follows it. -/
def suffix (p : Path) : Text := p.splitName.2

end Path

end ClangDb

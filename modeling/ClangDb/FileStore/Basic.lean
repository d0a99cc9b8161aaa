import ClangDb.FileStore.Error
import ClangDb.Path.Lexical
import ClangDb.Number.Binary64

/-! # The file store

    A store holds folders and files, each at a place: the list of names from the
    root down.  A path is followed name by name from the root or the working
    directory; each name but the last has to lead to a folder, and two dots lead
    to the folder above.  There are no links, so a place is the only one that
    its paths denote.

    Operations are total functions on stores.  One that fails leaves the store
    as it was, except for `makeFolders`, which keeps the folders that it made
    before it failed.
-/

namespace ClangDb

/-- The names that lead from the root to a file or folder. -/
abbrev Place := List Text

/-- How a program ends. -/
inductive Ending where
  /-- With an exit code. -/
  | exited (code : Int)
  /-- By a signal. -/
  | killed (signal : Nat)
  /-- Not before so many seconds, then with exit code zero. -/
  | sleeping (seconds : Binary64)
  deriving DecidableEq, Repr

/-- A file that can be run: what it writes to files and to its two outputs, and
    how it ends. -/
structure Program where
  writes : List (Text × List UInt8)
  output : List UInt8
  errors : List UInt8
  ending : Ending
  deriving DecidableEq, Repr

/-- What stands at a place. -/
inductive Entry where
  | folder
  | file (bytes : List UInt8) (program : Option Program)
  deriving DecidableEq, Repr

/-- Files and folders, and the folder that relative paths start from. -/
structure Store where
  workingDir : Place
  entries : List (Place × Entry)
  deriving Repr

namespace Store

/-- The entry at a place among others. -/
def lookup (p : Place) : List (Place × Entry) → Option Entry
  | [] => none
  | (q, e) :: r => if q = p then some e else lookup p r

/-- The entries with the one at a place set. -/
def update (p : Place) (e : Entry) : List (Place × Entry) → List (Place × Entry)
  | [] => [(p, e)]
  | (q, old) :: r => if q = p then (p, e) :: r else (q, old) :: update p e r

/-- What stands at a place; the root is a folder. -/
def entry? (s : Store) (p : Place) : Option Entry :=
  if p = [] then some .folder else lookup p s.entries

/-- The store with the entry at a place set. -/
def put (s : Store) (p : Place) (e : Entry) : Store :=
  { s with entries := update p e s.entries }

/-! ### Following paths -/

/-- The greatest number of bytes of a name. -/
def nameLimit : Nat := 255

/-- The least number of bytes of a path that is too long. -/
def pathLimit : Nat := 4096

/-- Follows one name from a place. -/
def enter (s : Store) (p : Place) (name : Text) : Except FileCause Place :=
  match s.entry? p with
  | none => .error .notFound
  | some (.file _ _) => .error .notFolder
  | some .folder =>
    if name = ("." : Text) then .ok p
    else if name = (".." : Text) then .ok p.dropLast
    else match Utf8.encode name with
      | .ok bytes => if nameLimit < bytes.length then .error .nameTooLong else .ok (p ++ [name])
      | .error _ => .error .notFound

/-- Follows names from a place. -/
def follow (s : Store) : Place → List Text → Except FileCause Place
  | p, [] => .ok p
  | p, name :: more =>
    match s.enter p name with
    | .ok q => follow s q more
    | .error e => .error e

/-- The names on a path. -/
def namesOn (path : Text) : List Text := (Text.splitAt '/' path).filter (· ≠ [])

/-- Follows some of the names on a path, from where the path starts. -/
def walk (s : Store) (path : Text) (names : List Text) : Except AccessError Place :=
  let refuse := fun cause => AccessError.file ⟨cause, path⟩
  if .char '\x00' ∈ path then .error .embeddedNull
  else match Utf8.encode path with
    | .error e => .error (.unencodable e)
    | .ok bytes =>
      if path.isEmpty then .error (refuse .notFound)
      else if pathLimit ≤ bytes.length then .error (refuse .nameTooLong)
      else (s.follow (if path.startsWith "/" then [] else s.workingDir) names).mapError refuse

/-- The place that a path denotes, whether or not anything stands there. -/
def locate (s : Store) (path : Text) : Except AccessError Place := s.walk path (namesOn path)

/-- Whether a path can denote a folder only. -/
def needsFolder (path : Text) : Bool := path.endsWith "/"

/-- What stands where a path leads. -/
def find (s : Store) (path : Text) : Except AccessError Entry := do
  let p ← s.locate path
  match s.entry? p with
  | none => .error (.file ⟨.notFound, path⟩)
  | some (.file bytes program) =>
    if needsFolder path then .error (.file ⟨.notFolder, path⟩) else .ok (.file bytes program)
  | some .folder => .ok .folder

/-! ### Questions -/

/-- Whether a path leads to a file; any failure counts as no. -/
def isFile (s : Store) (path : Text) : Bool :=
  match s.find path with
  | .ok (.file _ _) => true
  | _ => false

/-- Whether a path leads to a folder; any failure counts as no. -/
def isFolder (s : Store) (path : Text) : Bool :=
  match s.find path with
  | .ok .folder => true
  | _ => false

/-- Whether a path leads anywhere; any failure counts as no. -/
def reaches (s : Store) (path : Text) : Bool := (s.find path).isOk

/-- What a path leads to, if anything.  Of the failures only a name that is too
    long is one; the others say that nothing is there. -/
def probe (s : Store) (path : Text) : Except FileError (Option Entry) :=
  match s.find path with
  | .ok e => .ok (some e)
  | .error (.file e) => if e.cause = .nameTooLong then .error e else .ok none
  | .error _ => .ok none

/-! ### Reading and writing -/

/-- The content of a file. -/
def read (s : Store) (path : Text) : Except AccessError (List UInt8) := do
  match ← s.find path with
  | .file bytes _ => .ok bytes
  | .folder => .error (.file ⟨.isFolder, path⟩)

/-- The place at which a path can be written.  A path that can denote a folder
    only is refused once the folder above is found, whatever its last name. -/
def writable (s : Store) (path : Text) : Except AccessError Place :=
  let refuse := fun cause => Except.error (AccessError.file ⟨cause, path⟩)
  if needsFolder path then do
    let p ← s.walk path (namesOn path).dropLast
    match s.entry? p with
    | some .folder => refuse .isFolder
    | some (.file _ _) => refuse .notFolder
    | none => refuse .notFound
  else do
    let p ← s.locate path
    if s.entry? p = some .folder then refuse .isFolder else .ok p

/-- Writes a file in place of what it held. -/
def write (s : Store) (path : Text) (bytes : List UInt8) : Except AccessError Store := do
  let p ← s.writable path
  .ok (s.put p (.file bytes none))

/-! ### Folders -/

/-- Makes one folder. -/
def makeFolder (s : Store) (path : Text) : Except AccessError Store := do
  let p ← s.locate path
  match s.entry? p with
  | some _ => .error (.file ⟨.exists, path⟩)
  | none => .ok (s.put p .folder)

/-- A path cut before its last name; slashes at the end of the first part drop,
    unless it consists of slashes alone. -/
def splitLast (path : Text) : Text × Text :=
  match path.cutLast? '/' with
  | none => ([], path)
  | some (before, name) =>
    let folder := before.trimRight (· = .char '/')
    (if folder.isEmpty then before ++ "/" else folder, name)

/-- Makes a folder and those above it that are missing.  It is no failure if the
    folder is there.  The store is given back with what was made before a
    failure. -/
def makeFoldersWith (s : Store) (path : Text) : (fuel : Nat) → Store × Except AccessError Unit
  | 0 => (s, .ok ())
  | fuel + 1 =>
    let (head, tail) := match splitLast path with
      | (head, []) => splitLast head
      | parts => parts
    let make := fun s : Store =>
      match s.makeFolder path with
      | .ok s => (s, .ok ())
      | .error (.file e) => (s, if s.isFolder path then .ok () else .error (.file e))
      | .error e => (s, .error e)
    if !head.isEmpty && !tail.isEmpty && !s.reaches head then
      match makeFoldersWith s head fuel with
      | (s, .error e) =>
        if e matches .file ⟨.exists, _⟩ then
          if tail = ("." : Text) then (s, .ok ()) else make s
        else (s, .error e)
      | (s, .ok ()) => if tail = ("." : Text) then (s, .ok ()) else make s
    else make s

/-- Makes a folder and those above it that are missing; each of them has a
    shorter path. -/
def makeFolders (s : Store) (path : Text) : Store × Except AccessError Unit :=
  s.makeFoldersWith path (path.length + 1)

/-! ### Listing and resolving -/

/-- The names in a folder. -/
def namesIn (s : Store) (p : Place) : List Text :=
  s.entries.filterMap fun (q, _) =>
    match q.getLast? with
    | some name => if q.dropLast = p then some name else none
    | none => none

/-- Follows names without asking the store. -/
def resolveNames (p : Place) (names : List Text) : Place :=
  names.foldl (fun p name => if name = (".." : Text) then p.dropLast else p ++ [name]) p

/-- The place that a path denotes by its names alone.  Without links this is
    where `follow` leads if it leads anywhere. -/
def resolve (s : Store) (path : Path) : Place :=
  resolveNames (if path.anchor = .relative then s.workingDir else []) path.names

/-- The path of a place. -/
def pathOf (p : Place) : Path := ⟨.root, p⟩

end Store

end ClangDb

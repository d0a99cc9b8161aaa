/-! # Text

    The text of a compile database is not always valid Unicode: a byte that
    decodes to nothing has to come out of the program as it went in, and a
    JSON escape may name one half of a surrogate pair.  A `CodePoint` is
    therefore a character or one of the 2048 lone surrogates, and a `Text`
    is a list of code points.

    This file holds the type and the operations that the rest of the library
    is written in: cutting at a first occurrence, replacing every occurrence,
    splitting at a separator and joining.  All of them recurse on the list.
-/

namespace ClangDb

/-- A Unicode code point: a character, or the lone surrogate `U+D800 + unit`. -/
inductive CodePoint where
  | char (c : Char)
  | lone (unit : Fin 0x800)
  deriving DecidableEq, Repr, Inhabited

namespace CodePoint

/-- The number of a code point. -/
def toNat : CodePoint → Nat
  | .char c => c.toNat
  | .lone u => 0xD800 + u.val

/-- The code point with a number, if it has one below `U+110000`. -/
def ofNat? (n : Nat) : Option CodePoint :=
  if h : n.isValidChar then some (.char (Char.ofNatAux n h))
  else if h : 0xD800 ≤ n ∧ n < 0xE000 then some (.lone ⟨n - 0xD800, by omega⟩)
  else none

/-- The code point that stands for an undecodable byte, `U+DC00 + byte`. -/
def ofByte (b : UInt8) : CodePoint :=
  .lone ⟨0x400 + b.toNat, by have := b.toNat_lt; omega⟩

instance : Coe Char CodePoint := ⟨.char⟩

end CodePoint

/-- A text is a list of code points. -/
abbrev Text := List CodePoint

namespace Text

/-- The text of a string. -/
def ofString (s : String) : Text := s.toList.map .char

instance : Coe String Text := ⟨ofString⟩

/-- The text of one character. -/
def ofChar (c : Char) : Text := [.char c]

/-- The text of a natural number in base ten. -/
def ofNat (n : Nat) : Text := (Nat.toDigits 10 n).map .char

/-- The text of an integer in base ten. -/
def ofInt : Int → Text
  | .ofNat n => ofNat n
  | .negSucc n => .char '-' :: ofNat (n + 1)

/-! ### Occurrences -/

/-- What follows `pat` at the beginning of a text. -/
def dropStart? : (pat s : Text) → Option Text
  | [], s => some s
  | _ :: _, [] => none
  | p :: pat, c :: s => if p = c then dropStart? pat s else none

/-- What precedes and what follows the first occurrence of `pat`. -/
def cut? (pat : Text) : Text → Option (Text × Text)
  | [] => if pat.isEmpty then some ([], []) else none
  | c :: r =>
    if pat.isPrefixOf (c :: r) then some ([], (c :: r).drop pat.length)
    else (cut? pat r).map fun (before, after) => (c :: before, after)

/-- Whether `pat` occurs in the text. -/
def contains (s pat : Text) : Bool := (cut? pat s).isSome

/-- The recursion of `replaceAll`: `skip` code points of an occurrence that was
    already replaced are still to be passed over. -/
def replaceFrom (pat new : Text) : Nat → Text → Text
  | _, [] => []
  | skip + 1, _ :: r => replaceFrom pat new skip r
  | 0, c :: r =>
    if pat.isPrefixOf (c :: r) then new ++ replaceFrom pat new (pat.length - 1) r
    else c :: replaceFrom pat new 0 r

/-- Replaces the occurrences of a non-empty `pat`, leftmost first, none
    overlapping another. -/
def replaceAll (s pat new : Text) : Text := replaceFrom pat new 0 s

/-- Replaces one code point by another. -/
def substitute (s : Text) (old new : CodePoint) : Text :=
  s.map fun c => if c = old then new else c

/-! ### Ends -/

/-- The text without the code points in `p` at its end. -/
def trimRight (p : CodePoint → Bool) (s : Text) : Text := (s.reverse.dropWhile p).reverse

/-- The text without the code points in `p` at either end. -/
def trimBoth (p : CodePoint → Bool) (s : Text) : Text := trimRight p (s.dropWhile p)

/-- Whether the text begins with `pat`. -/
def startsWith (s pat : Text) : Bool := pat.isPrefixOf s

/-- Whether the text ends with `pat`. -/
def endsWith (s pat : Text) : Bool := pat.isSuffixOf s

/-! ### Pieces -/

/-- The pieces between the occurrences of one code point; never empty. -/
def splitAt (sep : CodePoint) : Text → List Text
  | [] => [[]]
  | c :: r =>
    if c = sep then [] :: splitAt sep r
    else match splitAt sep r with
      | piece :: pieces => (c :: piece) :: pieces
      | [] => [[c]]

/-- Writes pieces one after another with a separator between two. -/
def join (sep : Text) : List Text → Text
  | [] => []
  | [piece] => piece
  | piece :: pieces => piece ++ sep ++ join sep pieces

/-- What precedes and what follows the last occurrence of one code point. -/
def cutLast? (sep : CodePoint) (s : Text) : Option (Text × Text) :=
  match s.reverse.span (· ≠ sep) with
  | (_, []) => none
  | (after, _ :: before) => some (before.reverse, after.reverse)

/-- Order by code point numbers, a proper beginning of a text before it. -/
def before : Text → Text → Bool
  | [], _ => true
  | _ :: _, [] => false
  | a :: r, b :: s =>
    if a.toNat < b.toNat then true else if b.toNat < a.toNat then false else before r s

end Text

end ClangDb

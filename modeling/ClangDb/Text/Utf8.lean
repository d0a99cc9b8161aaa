import ClangDb.Text.Quoted

/-! # UTF-8

    Bytes are cut into pieces: an encoded character, or the longest beginning
    of one that the next byte does not continue.  The three ways to read a file
    differ only in what they make of such a fragment:

    - `decodeEscaping` keeps each of its bytes as a code point of its own, so
      that `encode` gives back the bytes that were read;
    - `decodeReplacing` writes one `U+FFFD` for the whole fragment;
    - `decode` refuses it and says where it stands and what is wrong with it.
-/

namespace ClangDb

namespace Utf8

/-- What is wrong with a fragment. -/
inductive Flaw where
  /-- The byte begins no character. -/
  | start
  /-- The next byte does not continue the character. -/
  | continuation
  /-- The bytes end within the character. -/
  | truncated
  deriving DecidableEq, Repr

/-- An encoded character, or a fragment of one. -/
inductive Piece where
  | char (c : Char)
  | fragment (bytes : List UInt8) (flaw : Flaw)
  deriving DecidableEq, Repr

/-- A character of which some bytes have been read. -/
structure Partial where
  /-- The bytes read, the last one first. -/
  read : List UInt8
  /-- The bits they carry. -/
  bits : Nat
  /-- The number of bytes still missing. -/
  missing : Nat
  /-- The least next byte. -/
  low : UInt8
  /-- The greatest next byte. -/
  high : UInt8

/-- The character that a byte above `0x7f` begins.  The range of the second byte
    excludes long forms, surrogates and numbers above `U+10FFFF`. -/
def Partial.begin? (b : UInt8) : Option Partial :=
  if 0xc2 ≤ b ∧ b ≤ 0xdf then some ⟨[b], b.toNat % 0x20, 1, 0x80, 0xbf⟩
  else if 0xe0 ≤ b ∧ b ≤ 0xef then
    some ⟨[b], b.toNat % 0x10, 2,
      if b = 0xe0 then 0xa0 else 0x80, if b = 0xed then 0x9f else 0xbf⟩
  else if 0xf0 ≤ b ∧ b ≤ 0xf4 then
    some ⟨[b], b.toNat % 0x08, 3,
      if b = 0xf0 then 0x90 else 0x80, if b = 0xf4 then 0x8f else 0xbf⟩
  else none

/-- Reads one byte between two characters. -/
def first (b : UInt8) : List Piece × Option Partial :=
  if b < 0x80 then ([.char (Char.ofNat b.toNat)], none)
  else match Partial.begin? b with
    | some p => ([], some p)
    | none => ([.fragment [b] .start], none)

/-- Reads one byte. -/
def step : Option Partial → UInt8 → List Piece × Option Partial
  | none, b => first b
  | some p, b =>
    if p.low ≤ b ∧ b ≤ p.high then
      let bits := p.bits * 0x40 + b.toNat % 0x40
      if p.missing ≤ 1 then ([.char (Char.ofNat bits)], none)
      else ([], some ⟨b :: p.read, bits, p.missing - 1, 0x80, 0xbf⟩)
    else
      let (pieces, next) := first b
      (.fragment p.read.reverse .continuation :: pieces, next)

/-- The pieces of the bytes that follow a partial character. -/
def piecesFrom : Option Partial → List UInt8 → List Piece
  | none, [] => []
  | some p, [] => [.fragment p.read.reverse .truncated]
  | state, b :: r =>
    let (pieces, next) := step state b
    pieces ++ piecesFrom next r

/-- The pieces of a file. -/
def pieces (bytes : List UInt8) : List Piece := piecesFrom none bytes

/-! ### Reading -/

/-- Reads bytes as text, each byte of a fragment as a code point of its own. -/
def decodeEscaping (bytes : List UInt8) : Text :=
  (pieces bytes).flatMap fun
    | .char c => [.char c]
    | .fragment bytes _ => bytes.map CodePoint.ofByte

/-- Reads bytes as text, each fragment as one replacement character. -/
def decodeReplacing (bytes : List UInt8) : Text :=
  (pieces bytes).map fun
    | .char c => .char c
    | .fragment _ _ => .char '\ufffd'

/-- A fragment met while reading, and the number of bytes before it. -/
structure DecodeError where
  position : Nat
  bytes : List UInt8
  flaw : Flaw
  deriving DecidableEq, Repr

/-- The first fragment among pieces that `position` bytes precede. -/
def decodeFrom : Nat → List Piece → Except DecodeError Text
  | _, [] => .ok []
  | position, .char c :: r =>
    match decodeFrom (position + c.utf8Size) r with
    | .ok t => .ok (.char c :: t)
    | .error e => .error e
  | position, .fragment bytes flaw :: _ => .error ⟨position, bytes, flaw⟩

/-- Reads bytes that have to be UTF-8. -/
def decode (bytes : List UInt8) : Except DecodeError Text := decodeFrom 0 (pieces bytes)

/-- The sentence that reports a fragment. -/
def DecodeError.message (e : DecodeError) : Text :=
  let reason : Text := match e.flaw with
    | .start => "invalid start byte"
    | .continuation => "invalid continuation byte"
    | .truncated => "unexpected end of data"
  let place : Text := match e.bytes with
    | [b] => "byte 0x" ++ hexDigits 2 b.toNat ++ " in position " ++ Text.ofNat e.position
    | bytes => "bytes in position " ++ Text.ofNat e.position ++ "-"
        ++ Text.ofNat (e.position + bytes.length - 1)
  "'utf-8' codec can't decode " ++ place ++ ": " ++ reason

/-! ### Writing -/

/-- The bytes of one code point; a lone surrogate has none unless it stands for
    an undecodable byte. -/
def encodeUnit? : CodePoint → Option (List UInt8)
  | .char c => some (String.utf8EncodeChar c)
  | .lone u => if 0x480 ≤ u.val ∧ u.val < 0x500 then some [UInt8.ofNat (u.val - 0x400)] else none

/-- A run of lone surrogates without bytes, and the number of code points before it. -/
structure EncodeError where
  position : Nat
  run : Text
  deriving DecidableEq, Repr

/-- Writes the text that `position` code points precede. -/
def encodeFrom : Nat → Text → Except EncodeError (List UInt8)
  | _, [] => .ok []
  | position, c :: r =>
    match encodeUnit? c with
    | some bytes => match encodeFrom (position + 1) r with
      | .ok more => .ok (bytes ++ more)
      | .error e => .error e
    | none =>
      let isLone : CodePoint → Bool | .lone _ => true | .char _ => false
      .error ⟨position, c :: r.takeWhile isLone⟩

/-- The bytes of a text. -/
def encode (s : Text) : Except EncodeError (List UInt8) := encodeFrom 0 s

/-- The sentence that reports a text without bytes. -/
def EncodeError.message (e : EncodeError) : Text :=
  let place : Text := match e.run with
    | [c] => "character " ++ Text.quoted [c] ++ " in position " ++ Text.ofNat e.position
    | run => "characters in position " ++ Text.ofNat e.position ++ "-"
        ++ Text.ofNat (e.position + run.length - 1)
  "'utf-8' codec can't encode " ++ place ++ ": surrogates not allowed"

end Utf8

end ClangDb

import ClangDb.Number.Binary64
import ClangDb.Text.Basic

/-! # The shortest decimal that reads back

    A number is written with the fewest digits that round to it again.  On the
    decimal grid of `n` digits only the two neighbours of the number can do so;
    `shortest` takes the first grid, from one digit upward, where one of them
    does, and of two the nearer.  Seventeen digits are always enough.

    `render` then lays the digits out: positional below `10 ^ 16` and down to
    `10 ^ -4`, with at least one digit after the point, and otherwise with an
    exponent of a sign and at least two digits.
-/

namespace ClangDb

namespace Binary64

/-- Digits and the power of ten that they are multiplied by. -/
structure Decimal where
  digits : Nat
  exponent : Int
  deriving DecidableEq, Repr

/-- The number of digits before the point of a positive `num / den`: the least
    `k` with `num / den < 10 ^ k`. -/
def pointOf (num den : Nat) : Int :=
  (Nat.toDigits 10 (num * tenTo 400 / den)).length - 400

/-- Numerator and denominator of `num / den / 10 ^ e`. -/
def scaleTen (num den : Nat) (e : Int) : Nat × Nat :=
  if 0 ≤ e then (num, den * tenTo e.toNat) else (num * tenTo (-e).toNat, den)

/-- The neighbour of `num / den` on the grid of multiples of `10 ^ e` that reads
    back as the number, the nearer one first. -/
def onGrid? (x : Binary64) (num den : Nat) (e : Int) : Option Decimal :=
  let (n, d) := scaleTen num den e
  let low := n / d
  let nearest := divHalfEven n d
  let other := if nearest = low then low + 1 else low
  if ofDecimal false nearest e = x then some ⟨nearest, e⟩
  else if ofDecimal false other e = x then some ⟨other, e⟩
  else none

/-- The first grid of at most `count` further grids that holds a decimal which
    reads back. -/
def firstGrid (x : Binary64) (num den : Nat) (top : Int) : Nat → Decimal
  | 0 => let (n, d) := scaleTen num den top; ⟨divHalfEven n d, top⟩
  | count + 1 => (onGrid? x num den top).getD (firstGrid x num den (top - 1) count)

/-- The shortest decimal of a finite positive number. -/
def shortest (m : Nat) (q : Int) : Decimal :=
  let (num, den) := scale m 1 (-q)
  firstGrid (.finite false m q) num den (pointOf num den - 1) 17

/-! ### Layout -/

/-- How a number is laid out. -/
structure Layout where
  /-- The least exponent of the first digit that is written positionally. -/
  leastPositional : Int
  /-- The first greater exponent that is not. -/
  firstScientific : Int
  /-- The least number of digits of a written exponent. -/
  exponentWidth : Nat
  /-- The texts of the numbers that are not finite. -/
  notANumber : Text
  infinity : Text

/-- Versions and timeouts as messages and configurations show them. -/
def plainLayout : Layout := ⟨-4, 16, 2, "nan", "inf"⟩

/-- A run of zeros. -/
def zeros (count : Nat) : Text := List.replicate count (.char '0')

/-- The exponent of a number in scientific form. -/
def Layout.exponent (l : Layout) (e : Int) : Text :=
  let digits := Text.ofNat e.natAbs
  let sign : Char := if e < 0 then '-' else '+'
  .char 'e' :: .char sign :: zeros (l.exponentWidth - digits.length) ++ digits

/-- The digits of a positive decimal, without zeros at the end. -/
def Decimal.significant (d : Decimal) : Text :=
  Text.trimRight (· = .char '0') (Text.ofNat d.digits)

/-- A positive decimal. -/
def Layout.decimal (l : Layout) (d : Decimal) : Text :=
  let digits := d.significant
  let point : Int := (Text.ofNat d.digits).length + d.exponent
  if l.leastPositional < point ∧ point ≤ l.firstScientific then
    if point ≤ 0 then
      "0." ++ zeros (-point).toNat ++ digits
    else
      let whole := digits.take point.toNat
      let fraction := digits.drop point.toNat
      whole ++ zeros (point.toNat - whole.length) ++ "."
        ++ (if fraction.isEmpty then zeros 1 else fraction)
  else
    let fraction := digits.drop 1
    digits.take 1 ++ (if fraction.isEmpty then [] else .char '.' :: fraction)
      ++ l.exponent (point - 1)

/-- A number. -/
def Layout.number (l : Layout) : Binary64 → Text
  | .nan => l.notANumber
  | .infinite negative => (if negative then [.char '-'] else []) ++ l.infinity
  | .finite negative m q =>
    (if negative then [.char '-'] else [])
      ++ (if m = 0 then l.decimal ⟨0, 0⟩ else l.decimal (shortest m q))

/-- The text of a number in messages and configurations. -/
def render (x : Binary64) : Text := plainLayout.number x

end Binary64

end ClangDb

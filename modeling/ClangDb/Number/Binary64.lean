/-! # Binary64 numbers

    Engine versions and timeouts are double-precision numbers.  A finite one is
    `± significand · 2 ^ exponent`, with the significand below `2 ^ 53` and the
    exponent as small as the format allows.  `roundRatio` takes a quotient of
    naturals to the nearest of them, a half going to the even neighbour; every
    number of the library is made by it, so equal values are equal terms.
-/

namespace ClangDb

/-- A double-precision number. -/
inductive Binary64 where
  | nan
  | infinite (negative : Bool)
  | finite (negative : Bool) (significand : Nat) (exponent : Int)
  deriving DecidableEq, Repr, Inhabited

namespace Binary64

/-- Two to a power. -/
def twoTo (n : Nat) : Nat := Nat.pow 2 n

/-- Ten to a power. -/
def tenTo (n : Nat) : Nat := Nat.pow 10 n

/-- The exponent of the smallest numbers. -/
def minExponent : Int := -1074

/-- The exponent of the greatest numbers. -/
def maxExponent : Int := 971

/-- A finite number in the form that `roundRatio` gives. -/
def IsFinite : Binary64 → Prop
  | .finite _ m q =>
    m < twoTo 53 ∧ minExponent ≤ q ∧ q ≤ maxExponent ∧ (twoTo 52 ≤ m ∨ q = minExponent)
  | _ => False

instance : DecidablePred IsFinite := fun x => by
  cases x <;> unfold IsFinite <;> infer_instance

/-! ### Rounding -/

/-- The quotient to the nearest natural, a half to the even one. -/
def divHalfEven (num den : Nat) : Nat :=
  let quotient := num / den
  let rest := num % den
  if den < 2 * rest ∨ (2 * rest = den ∧ quotient % 2 = 1) then quotient + 1 else quotient

/-- Numerator and denominator of `num / den / 2 ^ q`. -/
def scale (num den : Nat) (q : Int) : Nat × Nat :=
  if 0 ≤ q then (num, den * twoTo q.toNat) else (num * twoTo (-q).toNat, den)

/-- The exponent at which `num / den` has a significand of 53 bits, or the least
    exponent where that is greater. -/
def exponentFor (num den : Nat) : Int :=
  let q : Int := num.log2 - den.log2 - 53
  let (n, d) := scale num den q
  max minExponent (if twoTo 53 ≤ n / d then q + 1 else q)

/-- The finite or infinite number nearest to `num / den`. -/
def roundRatio (negative : Bool) (num den : Nat) : Binary64 :=
  if num = 0 then .finite negative 0 minExponent
  else
    let q := exponentFor num den
    let (n, d) := scale num den q
    let m := divHalfEven n d
    let (m, q) := if m = twoTo 53 then (twoTo 52, q + 1) else (m, q)
    if maxExponent < q then .infinite negative else .finite negative m q

/-- The number nearest to an integer. -/
def ofInt (n : Int) : Binary64 := roundRatio (n < 0) n.natAbs 1

/-- The number nearest to `± digits · 10 ^ exponent`.  Beyond the magnitudes that
    the format holds the power is not computed. -/
def ofDecimal (negative : Bool) (digits : Nat) (exponent : Int) : Binary64 :=
  let magnitude : Int := (Nat.toDigits 10 digits).length + exponent
  if digits = 0 ∨ magnitude < -330 then roundRatio negative 0 1
  else if 330 < magnitude then .infinite negative
  else if 0 ≤ exponent then roundRatio negative (digits * tenTo exponent.toNat) 1
  else roundRatio negative digits (tenTo (-exponent).toNat)

/-! ### Values -/

/-- Whether a number is zero, of either sign. -/
def isZero : Binary64 → Bool
  | .finite _ m _ => m = 0
  | _ => false

/-- Whether a number is less than a natural number. -/
def ltNat (x : Binary64) (n : Nat) : Bool :=
  match x with
  | .nan => false
  | .infinite negative => negative
  | .finite negative m q =>
    let (a, b) := scale m 1 (-q)
    if negative then m ≠ 0 || n ≠ 0 else a < n * b

/-- Whether a number is less than another. -/
def lt : Binary64 → Binary64 → Bool
  | .nan, _ | _, .nan => false
  | .infinite negative, .infinite negative' => negative && !negative'
  | .infinite negative, .finite .. => negative
  | .finite .., .infinite negative => !negative
  | .finite negative m q, .finite negative' m' q' =>
    let least := min q q'
    let signed := fun (negative : Bool) (m : Nat) (q : Int) =>
      let n : Int := Int.ofNat (m * twoTo (q - least).toNat)
      if negative then -n else n
    signed negative m q < signed negative' m' q'

/-- Why a number has no integer part. -/
inductive NoInteger where
  | notANumber
  | unbounded
  deriving DecidableEq, Repr

/-- The integer part, toward zero. -/
def truncate : Binary64 → Except NoInteger Int
  | .nan => .error .notANumber
  | .infinite _ => .error .unbounded
  | .finite negative m q =>
    let n : Nat := if 0 ≤ q then m * twoTo q.toNat else m / twoTo (-q).toNat
    .ok (if negative then -n else n)

end Binary64

end ClangDb

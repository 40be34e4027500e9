/-!
Numbers of the binary64 format, and the one that is nearest to a decimal.
-/

namespace Hql

/-- A number of the binary64 format. A finite one is `significand * 2 ^ exponent`; its significand
has at most 53 bits, and has all of them unless the exponent is the least one. -/
inductive Binary64 where
  | finite (negative : Bool) (significand : Nat) (exponent : Int)
  | infinite (negative : Bool)
  deriving DecidableEq, Repr

namespace Binary64

/-- The least significand of 53 bits. -/
def fullSignificand : Nat := Nat.pow 2 52

/-- The least exponent of a finite number. -/
def minExponent : Int := -1074

/-- The greatest exponent of a finite number. -/
def maxExponent : Int := 971

/-- The quotient rounded to the nearest natural number, a half to the even one. -/
def roundDiv (num den : Nat) : Nat :=
  let q := num / den
  let twice := 2 * (num % den)
  if twice < den then q else if den < twice then q + 1 else q + q % 2

/-- Two numbers whose quotient is `num / den / base ^ k`. -/
def scaled (base num den : Nat) (k : Int) : Nat × Nat :=
  if k < 0 then (num * base.pow (-k).toNat, den) else (num, den * base.pow k.toNat)

/-- The exponent at which `num / den` has a significand of 53 bits, or the least exponent. -/
def exponentOf (num den : Nat) : Int :=
  let guess : Int := (num.log2 : Int) - den.log2 - 52
  let (n, d) := scaled 2 num den guess
  max minExponent (if n < d * fullSignificand then guess - 1 else guess)

/-- The number nearest to `num / den`, a tie going to the even significand. -/
def ofRatio (negative : Bool) (num den : Nat) : Binary64 :=
  if num = 0 then .finite negative 0 minExponent
  else
    let e := exponentOf num den
    let (n, d) := scaled 2 num den e
    let m := roundDiv n d
    -- rounding up may take one bit more
    let (m, e) := if m = 2 * fullSignificand then (fullSignificand, e + 1) else (m, e)
    if maxExponent < e then .infinite negative else .finite negative m e

/-- The number nearest to `digits * 10 ^ power`. Powers far outside the range of the format are
settled before any arithmetic. -/
def ofDecimal (negative : Bool) (digits : Nat) (power : Int) : Binary64 :=
  let length : Int := (Nat.toDigits 10 digits).length
  if digits = 0 || length + power < -400 then .finite negative 0 minExponent
  else if 400 < length + power then .infinite negative
  else
    let (n, d) := scaled 10 digits 1 (-power)
    ofRatio negative n d

/-- Zero of either sign. -/
def isZero : Binary64 → Bool
  | finite _ m _ => m == 0
  | infinite _ => false

end Binary64

end Hql

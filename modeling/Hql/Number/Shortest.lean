import Hql.Number.Binary64

/-!
The text of a binary64 number: the fewest decimal digits that read back as the number, and of
those the nearest to it.
-/

namespace Hql.Binary64

/-- The decimals that round to a positive number, in quarters of its last place: both ends, and
whether the ends belong to them. Below a power of two the numbers lie twice as close. -/
structure Neighbourhood where
  low : Nat
  high : Nat
  closed : Bool

/-- The neighbourhood of `m * 2 ^ e`. Its ends round to the number if its significand is even. -/
def neighbourhood (m : Nat) (e : Int) : Neighbourhood where
  low := if m = fullSignificand ∧ minExponent < e then 4 * m - 1 else 4 * m - 2
  high := 4 * m + 2
  closed := m % 2 = 0

/-- The point `d * 10 ^ k` lies in the neighbourhood. -/
def Neighbourhood.contains (b : Neighbourhood) (e k : Int) (d : Nat) : Bool :=
  let (p, q) := scaled 10 d 1 (-k)
  let (n, u) := scaled 2 p q (e - 2)
  if b.closed then b.low * u ≤ n && n ≤ b.high * u else b.low * u < n && n < b.high * u

/-- The greatest power of ten that is not above `num / den`. -/
def decimalExponent (num den : Nat) : Int :=
  let guess : Int := ((Nat.toDigits 10 num).length : Int) - (Nat.toDigits 10 den).length
  let (n, d) := scaled 10 num den guess
  if n < d then guess - 1 else guess

/-- The points with at most `count` digits next to the number, of those the nearest that lies in
its neighbourhood; a tie goes to the even one. -/
def onGrid? (m : Nat) (e : Int) (count : Nat) : Option (Nat × Int) :=
  let (num, den) := scaled 2 m 1 (-e)
  let k := decimalExponent num den - (count - 1)
  let (n, d) := scaled 10 num den k
  let below := n / d
  let order := if roundDiv n d = below then [below, below + 1] else [below + 1, below]
  ((order.find? ((neighbourhood m e).contains e k)).map fun point => (point, k))

/-- The shortest digits of a positive number and the power of ten of their last place. Seventeen
digits are always enough. -/
def shortest (m : Nat) (e : Int) : Nat × Int :=
  ((List.range 17).findSome? fun i => onGrid? m e (i + 1)).getD (0, 0)

/-- The text of a positive number. It is positional for decimal exponents from -4 to 15, and always
shows a fraction or an exponent. -/
def positiveText (m : Nat) (e : Int) : String :=
  let (d, k) := shortest m e
  let written := Nat.toDigits 10 d
  let point : Int := written.length + k
  let digits := (written.reverse.dropWhile (· == '0')).reverse
  let text : List Char :=
    if -3 ≤ point && point ≤ 0 then
      -- zeros between the point and the digits
      '0' :: '.' :: List.replicate (-point).toNat '0' ++ digits
    else if 0 < point && point ≤ 16 then
      -- the point among the digits, or zeros up to it
      let whole := digits.take point.toNat
      let fraction := digits.drop point.toNat
      whole ++ List.replicate (point.toNat - whole.length) '0' ++
        '.' :: (if fraction.isEmpty then ['0'] else fraction)
    else
      -- one digit before the point and an exponent of at least two digits
      let exponent := Nat.toDigits 10 (point - 1).natAbs
      digits.take 1 ++ (if digits.length = 1 then [] else '.' :: digits.drop 1) ++
        'e' :: (if point - 1 < 0 then '-' else '+') ::
          (List.replicate (2 - exponent.length) '0' ++ exponent)
  String.ofList text

/-- The text of a number. -/
def text : Binary64 → String
  | finite negative m e =>
    (if negative then "-" else "") ++ (if m = 0 then "0.0" else positiveText m e)
  | infinite negative => if negative then "-inf" else "inf"

end Hql.Binary64

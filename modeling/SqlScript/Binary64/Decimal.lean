import SqlScript.Binary64.Basic

/-! From decimals to doubles and to rounded decimals. A quotient is rounded to the nearest whole
number, a half to the even neighbour; `ofDecimal` rounds to the nearest double and `toFixed`
to a fixed number of places, both by that rule. -/
namespace SqlScript

/-- The whole number nearest to `n / d`, a half going to the even one. -/
def roundDiv (n d : Nat) : Nat :=
  let q := n / d
  let r := n % d
  if 2 * r < d then q else if d < 2 * r then q + 1 else q + q % 2

/-- The number that a string of decimal digits denotes. -/
def digitsValue (digits : List Char) : Nat :=
  digits.foldl (fun n c => 10 * n + (c.toNat - '0'.toNat)) 0

/-- How many decimal digits `n` has; zero has none. -/
def decimalLength (n : Nat) : Nat :=
  if n = 0 then 0 else decimalLength (n / 10) + 1
termination_by n

/-- The quotient `n / d` rounded to a fixed number of places. -/
def fixedText (places n d : Nat) : String :=
  let scaled := roundDiv (n * tenPow places) d
  let fraction := toString (scaled % tenPow places)
  let zeros := String.ofList (List.replicate (places - fraction.length) '0')
  toString (scaled / tenPow places) ++ if places = 0 then "" else "." ++ zeros ++ fraction

namespace Binary64

/-- The index of the number nearest to `n / d` smallest positive numbers. Around that quotient
the numbers lie `2 ^ q` apart, so the quotient is rounded in steps of that size; a result of
`2 ^ 53` steps is the next power of two, which the addition carries into the exponent. -/
def nearestIndex (n d : Nat) : Nat :=
  let q := Nat.log2 (n / d) - 52
  q * twoPow 52 + roundDiv n (d * twoPow q)

/-- The number nearest to `n / 10 ^ places`; what is too large is infinity. -/
def ofDecimal (n places : Nat) : Binary64 :=
  ofIndex (nearestIndex (n * unitsPerOne) (tenPow places))

/-- A finite number without its sign, rounded to a fixed number of places. -/
def toFixed (places : Nat) (x : Binary64) : String := fixedText places (units x.index) unitsPerOne

end Binary64

end SqlScript

import SqlScript.Binary64.Shortest

/-! How a number is written: shortest digits, laid out with a decimal point or with an exponent.
A layout says which first-digit exponents are written with a point, whether whole numbers keep
`.0`, whether a non-negative exponent has a plus sign, and which of two equally near decimals is
taken. -/
namespace SqlScript

structure Layout where
  tie : Tie
  /-- Is a number whose first digit has this exponent written with a point? -/
  positional : Int → Bool
  /-- Do whole numbers written with a point keep `.0`? -/
  keepsPoint : Bool
  /-- Is a non-negative exponent written with a plus sign? -/
  plusSign : Bool

namespace Layout

/-- Postfix text: never an exponent, whole numbers without a point. -/
def plain : Layout where
  tie := .up
  positional _ := true
  keepsPoint := false
  plusSign := false

/-- JSON: a point from `0.00001` up to sixteen whole digits, always with a fraction. -/
def json : Layout where
  tie := .even
  positional e := -5 ≤ e && e ≤ 15
  keepsPoint := true
  plusSign := true

/-- Dumps: a point from `0.0001` up to sixteen whole digits, always with a fraction. -/
def dump : Layout where
  tie := .up
  positional e := -4 ≤ e && e ≤ 15
  keepsPoint := true
  plusSign := false

def zeros (n : Nat) : String := String.ofList (List.replicate n '0')

/-- Writes a decimal with a point, its first digit having exponent `d.leading`. -/
def writePoint (l : Layout) (d : Decimal) : String :=
  let digits := toString d.coefficient
  if 0 ≤ d.exponent then
    digits ++ zeros d.exponent.toNat ++ if l.keepsPoint then ".0" else ""
  else
    let places := (-d.exponent).toNat
    if digits.length ≤ places then "0." ++ zeros (places - digits.length) ++ digits
    else
      let whole := digits.toList.take (digits.length - places)
      String.ofList whole ++ "." ++ String.ofList (digits.toList.drop whole.length)

/-- Writes a decimal with one digit before the point and an exponent. -/
def writeExponent (l : Layout) (d : Decimal) : String :=
  let digits := (toString d.coefficient).toList
  let fraction := digits.drop 1
  let point := if fraction.isEmpty then "" else "."
  let sign := if l.plusSign && 0 ≤ d.leading then "+" else ""
  String.ofList (digits.take 1) ++ point ++ String.ofList fraction ++ "e" ++ sign ++
    toString d.leading

/-- The digits of a finite number without its sign. -/
def writeFinite (l : Layout) (k : Nat) : String :=
  let d := Binary64.shortest l.tie k
  if k = 0 || l.positional d.leading then l.writePoint d else l.writeExponent d

/-- The text of a number; what is not a number has no sign. -/
def write (l : Layout) (x : Binary64) : String :=
  if x.isNaN then "NaN"
  else (if x.isNegative then "-" else "") ++
    if x.isFinite then l.writeFinite x.index else "inf"

end Layout

end SqlScript

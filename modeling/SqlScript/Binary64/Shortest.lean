import SqlScript.Binary64.Decimal

/-! The shortest decimal that reads back as a given number. A real number rounds to the number
with index `k` when it lies between the midpoints to the numbers with index `k - 1` and `k + 1`;
the midpoints belong to it when `k` is even. The decimals with one digit, with two and so on are
tried in turn: of a length only the two that enclose the value can be nearest. -/
namespace SqlScript

/-- The number `coefficient * 10 ^ exponent`. -/
structure Decimal where
  coefficient : Nat
  exponent : Int
deriving DecidableEq, Repr, Inhabited

/-- What is taken when two decimals of the least length are equally near. -/
inductive Tie
  | up
  | even
deriving DecidableEq, Repr

namespace Decimal

/-- The exponent of the first digit. -/
def leading (d : Decimal) : Int := d.exponent + decimalLength d.coefficient - 1

/-- The same number without trailing zeros; zero itself stays as it is. -/
def trim (d : Decimal) : Decimal :=
  if d.coefficient ≠ 0 ∧ d.coefficient % 10 = 0 then
    trim ⟨d.coefficient / 10, d.exponent + 1⟩
  else d
termination_by d.coefficient

/-- Is the number with index `k` the double nearest to this decimal? -/
def readsAs (d : Decimal) (k : Nat) : Bool :=
  let n := d.coefficient * tenPow d.exponent.toNat * (2 * Binary64.unitsPerOne)
  let one := tenPow (-d.exponent).toNat
  let low := (Binary64.units (k - 1) + Binary64.units k) * one
  let high := (Binary64.units k + Binary64.units (k + 1)) * one
  if k % 2 = 0 then decide (low ≤ n ∧ n ≤ high) else decide (low < n ∧ n < high)

end Decimal

namespace Binary64

/-- The exponent of the first digit of the number with index `k`, which is not zero. -/
def magnitude (k : Nat) : Int :=
  if unitsPerOne ≤ units k then decimalLength (units k / unitsPerOne) - 1
  else -decimalLength ((unitsPerOne - 1) / units k)

/-- The two multiples of `10 ^ p` that enclose the number with index `k`, the nearer first. -/
def neighbours (tie : Tie) (k : Nat) (p : Int) : Decimal × Decimal :=
  let n := units k * tenPow (-p).toNat
  let step := unitsPerOne * tenPow p.toNat
  let below := n / step
  let r := n % step
  let upFirst :=
    step < 2 * r || (step == 2 * r && match tie with | .up => true | .even => below % 2 == 1)
  if upFirst then (⟨below + 1, p⟩, ⟨below, p⟩) else (⟨below, p⟩, ⟨below + 1, p⟩)

/-- The first decimal that reads back, with `more` digits left to try after exponent `p`. The
last grid has seventeen digits, on which the nearest decimal always reads back. -/
def shortestFrom (tie : Tie) (k : Nat) : Nat → Int → Decimal
  | 0, p => (neighbours tie k p).1
  | more + 1, p =>
    let (near, far) := neighbours tie k p
    if near.readsAs k then near
    else if far.readsAs k then far
    else shortestFrom tie k more (p - 1)

/-- The shortest decimal that reads back as the number with index `k`, and of those the
nearest. -/
def shortest (tie : Tie) (k : Nat) : Decimal :=
  if k = 0 then ⟨0, 0⟩ else (shortestFrom tie k 16 (magnitude k)).trim

end Binary64

end SqlScript

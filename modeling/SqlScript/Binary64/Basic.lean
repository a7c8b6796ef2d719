import SqlScript.Power

/-! Double-precision numbers as their 64 bits. The non-negative ones are counted by their
index: index 0 is zero, each further index is the next larger number, and `infinityIndex` is
infinity. A finite number is a whole multiple of the smallest positive one, so everything said
about values here is said in natural numbers. -/
namespace SqlScript

/-- A double-precision number, given by its bits. -/
structure Binary64 where
  bits : UInt64
deriving DecidableEq, Repr, Inhabited

namespace Binary64

/-- The index of infinity; the larger ones below `2 ^ 63` are not numbers. -/
def infinityIndex : Nat := 2047 * twoPow 52

/-- The non-negative number with a given index; from `infinityIndex` on, infinity. -/
def ofIndex (k : Nat) : Binary64 := ⟨UInt64.ofNat (min k infinityIndex)⟩

/-- The index of the number without its sign. -/
def index (x : Binary64) : Nat := x.bits.toNat % twoPow 63

def isNegative (x : Binary64) : Bool := twoPow 63 ≤ x.bits.toNat

def isFinite (x : Binary64) : Bool := x.index < infinityIndex

def isNaN (x : Binary64) : Bool := infinityIndex < x.index

/-- The step between numbers around index `k` is `2 ^ scale k` times the smallest positive
number. -/
def scale (k : Nat) : Nat := k / twoPow 52 - 1

/-- The number with index `k` in steps of `2 ^ scale k`. -/
def significand (k : Nat) : Nat := if k < twoPow 52 then k else twoPow 52 + k % twoPow 52

/-- The number with index `k` as a multiple of the smallest positive one, `1 / unitsPerOne`. -/
def units (k : Nat) : Nat := significand k * twoPow (scale k)

/-- How many of the smallest positive number make one. -/
def unitsPerOne : Nat := twoPow 1074

/-- Equality of numbers: zero equals negative zero, and what is not a number equals nothing. -/
def same (x y : Binary64) : Bool :=
  !x.isNaN && !y.isNaN && (x.bits == y.bits || (x.index == 0 && y.index == 0))

theorem same_comm (x y : Binary64) : x.same y = y.same x := by
  simp only [same, Bool.and_comm (x.index == 0), BEq.comm (a := x.bits), Bool.and_comm (!x.isNaN)]

theorem same_self (x : Binary64) : x.same x = !x.isNaN := by
  simp [same]

end Binary64

end SqlScript

import SqlScript.Tree.Basic

/-! From a chain of operands and operators to postfix order. The yard holds the entries written so
far and the operators that wait for their right operand, the latest first. An operator that comes
in first sends out those waiting that bind at least as tightly. -/
namespace SqlScript

structure Yard (α : Type) where
  output : Array (Item α)
  waiting : List (Spanned α Operator)

namespace Yard

variable {α : Type}

def start (operand : Operand α) : Yard α := ⟨#[.operand operand], []⟩

/-- Takes in an operator and the operand behind it. -/
def shift (y : Yard α) (link : Spanned α Operator × Operand α) : Yard α :=
  let (operator, operand) := link
  let ready := fun (w : Spanned α Operator) => operator.node.precedence ≤ w.node.precedence
  { output := (y.output ++ (y.waiting.takeWhile ready).map Item.operator).push (.operand operand)
    waiting := operator :: y.waiting.dropWhile ready }

/-- Sends out all operators that still wait, the latest first. -/
def finish (y : Yard α) : List (Item α) := y.output.toList ++ y.waiting.map .operator

/-- The postfix order of an operand and the links behind it. -/
def postfixed (first : Operand α) (links : List (Spanned α Operator × Operand α)) :
    List (Item α) :=
  (links.foldl shift (start first)).finish

end Yard

end SqlScript

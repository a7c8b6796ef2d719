import SqlScript.Token

/-! The binary operators of expressions, how they are written and how tightly they bind. -/
namespace SqlScript

inductive Operator
  | add
  | sub
  | mul
  | div
  | eq
  | notEq
  | lt
  | gt
  | ltEq
  | gtEq
  | and
  | or
  | is
deriving DecidableEq, Repr

namespace Operator

def symbol : Operator → String
  | add => "+"
  | sub => "-"
  | mul => "*"
  | div => "/"
  | eq => "="
  | notEq => "!="
  | lt => "<"
  | gt => ">"
  | ltEq => "<="
  | gtEq => ">="
  | and => "AND"
  | or => "OR"
  | is => "IS"

/-- How tightly an operator binds; the larger binds first. -/
def precedence : Operator → Nat
  | mul | div => 14
  | add | sub => 13
  | lt | gt | ltEq | gtEq => 11
  | eq | notEq => 10
  | and => 6
  | or => 5
  | is => 0

def all : List Operator := [add, sub, mul, div, eq, notEq, lt, gt, ltEq, gtEq, and, or, is]

/-- The operator written this way. -/
def ofSymbol? (text : String) : Option Operator := all.find? (·.symbol = text)

/-- The operator that a token stands for. Keywords and symbols are told apart by their text
alone. -/
def ofKind? : Kind → Option Operator
  | .keyword text | .symbol text => ofSymbol? text
  | _ => none

theorem ofSymbol?_symbol (o : Operator) : ofSymbol? o.symbol = some o := by
  cases o <;> decide

theorem symbol_of_ofSymbol? {text : String} {o : Operator} (h : ofSymbol? text = some o) :
    o.symbol = text := by
  simpa using List.find?_some h

end Operator

end SqlScript

import SqlScript.Binary64.Layout
import SqlScript.Text.Quoted
import SqlScript.Tree.Basic

/-! The postfix text of expressions: entries with blanks between them, the arguments of a call
between parentheses with commas between them. -/
namespace SqlScript

variable {α : Type}

/-- A column with its table, if that is named, and a dot between them. -/
def ColumnRef.text (c : ColumnRef) : String :=
  match c.table with
  | some table => table ++ "." ++ c.column
  | none => c.column

/-- Strings stand in single quotes, and numbers are written without an exponent. -/
def Atom.text : Atom → String
  | column ref => ref.text
  | number value => Layout.plain.write value
  | string value => String.ofList (Quoted.write value.toList)
  | bool value => if value then "TRUE" else "FALSE"
  | null => "NULL"

mutual

/-- A call is written with its arguments between parentheses. -/
def Operand.text : Operand α → String
  | .not _ value => "NOT " ++ value.text
  | .call _ function args => function ++ "(" ++ ", ".intercalate (Expr.texts args) ++ ")"
  | .atom _ value => value.text

/-- Postfix: the items of the stack, one after another. -/
def Expr.text : Expr α → String
  | .postfixed _ stack => " ".intercalate (Item.texts stack)

def Expr.texts : List (Expr α) → List String
  | [] => []
  | e :: es => e.text :: Expr.texts es

def Item.text : Item α → String
  | .operand value => value.text
  | .operator value => value.node.symbol

def Item.texts : List (Item α) → List String
  | [] => []
  | i :: is => i.text :: Item.texts is

end

end SqlScript

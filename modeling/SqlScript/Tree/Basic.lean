import SqlScript.Operator
import SqlScript.Span

/-! What scripts consist of. Every node carries an annotation of type `α`; scripts that were read
from tokens carry the first and the last token of each node, a `Span Token`. -/
namespace SqlScript

/-- `database.table` or `table`. -/
structure TableRef where
  database : Option String
  table : String
deriving DecidableEq, Repr

/-- `table.column` or `column`. -/
structure ColumnRef where
  table : Option String
  column : String
deriving DecidableEq, Repr

/-- An operand without parts of its own. -/
inductive Atom
  | column (ref : ColumnRef)
  | number (value : Binary64)
  | string (value : String)
  | bool (value : Bool)
  | null
deriving DecidableEq, Repr

mutual

/-- What can stand on either side of a binary operator. -/
inductive Operand (α : Type)
  | not (span : α) (value : Operand α)
  | call (span : α) (function : String) (args : List (Expr α))
  | atom (span : α) (value : Atom)

/-- An expression in postfix order: `1 + 2 * 3` is `1 2 3 * +`. -/
inductive Expr (α : Type)
  | postfixed (span : α) (stack : List (Item α))

/-- An entry of an expression. -/
inductive Item (α : Type)
  | operand (value : Operand α)
  | operator (value : Spanned α Operator)

end

namespace Operand

def span {α : Type} : Operand α → α
  | not span _ | call span _ _ | atom span _ => span

end Operand

namespace Expr

def span {α : Type} : Expr α → α
  | postfixed span _ => span

def stack {α : Type} : Expr α → List (Item α)
  | postfixed _ stack => stack

end Expr

/-- What FROM, WHERE and ORDER BY say, as far as they are there. -/
structure Clauses (α : Type) where
  tables : Option (Spanned α (List (Spanned α TableRef)))
  filter : Option (Spanned α (Expr α))
  order : Option (Spanned α (List (Spanned α ColumnRef)))

inductive Statement (α : Type)
  | use (span : α) (database : String)
  /-- A bare SELECT has an empty list. -/
  | select (span : α) (list : List (Expr α)) (clauses : Option (Spanned α (Clauses α)))
  | insert (span : α) (into : Spanned α TableRef) (columns : List (Spanned α ColumnRef))
      (values : List (Expr α))
  | delete (span : α) (clauses : Spanned α (Clauses α))

namespace Statement

def span {α : Type} : Statement α → α
  | use span _ | select span _ _ | insert span _ _ _ | delete span _ => span

end Statement

end SqlScript

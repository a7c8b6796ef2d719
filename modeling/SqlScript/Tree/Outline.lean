import SqlScript.Tree.Text

/-! The outline of a tree: a row for each node, a node before its parts, with its kind, its
annotation and, for expressions and what they consist of, its text. -/
namespace SqlScript

/-- One line of the outline, about one node. -/
structure Row (α : Type) where
  label : String
  span : α
  text : Option String

variable {α : Type}

/-- What kind of node an operand is that is a single value. -/
def Atom.label : Atom → String
  | column _ => "column"
  | number _ => "number"
  | string _ => "string"
  | bool _ => "bool"
  | null => "null"

mutual

/-- An operand and, behind it, what it is applied to. -/
def Operand.rows : Operand α → List (Row α)
  | .not span value => ⟨"not", span, (Operand.not span value).text⟩ :: value.rows
  | .call span function args =>
    ⟨"call", span, (Operand.call span function args).text⟩ :: Expr.listRows args
  | .atom span value => [⟨value.label, span, value.text⟩]

/-- The items of an expression come in postfix order, as they are on its stack. -/
def Expr.rows : Expr α → List (Row α)
  | .postfixed span stack => ⟨"expr", span, (Expr.postfixed span stack).text⟩ :: Item.listRows stack

def Expr.listRows : List (Expr α) → List (Row α)
  | [] => []
  | e :: es => e.rows ++ Expr.listRows es

def Item.rows : Item α → List (Row α)
  | .operand value => value.rows
  | .operator value => [⟨"operator", value.span, value.node.symbol⟩]

def Item.listRows : List (Item α) → List (Row α)
  | [] => []
  | i :: is => i.rows ++ Item.listRows is

end

def tableRow (t : Spanned α TableRef) : Row α := ⟨"table_ref", t.span, none⟩

def columnRow (c : Spanned α ColumnRef) : Row α := ⟨"column", c.span, c.node.text⟩

/-- The clauses that are there, each before what it consists of. -/
def Clauses.rows (c : Spanned α (Clauses α)) : List (Row α) :=
  let tables := c.node.tables.map fun l => ⟨"from_clause", l.span, none⟩ :: l.node.map tableRow
  let filter := c.node.filter.map fun e => ⟨"where_clause", e.span, none⟩ :: e.node.rows
  let order := c.node.order.map fun l => ⟨"order_by", l.span, none⟩ :: l.node.map columnRow
  ⟨"table_expr", c.span, none⟩ :: (tables.getD [] ++ filter.getD [] ++ order.getD [])

/-- A statement before its parts, in the order of its tokens. -/
def Statement.rows : Statement α → List (Row α)
  | use span _ => [⟨"use", span, none⟩]
  | select span list clauses =>
    ⟨"select", span, none⟩ :: (Expr.listRows list ++ clauses.elim [] Clauses.rows)
  | insert span into columns values =>
    ⟨"insert", span, none⟩ :: tableRow into :: (columns.map columnRow ++ Expr.listRows values)
  | delete span clauses => ⟨"delete", span, none⟩ :: Clauses.rows clauses

end SqlScript

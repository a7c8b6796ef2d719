import SqlScript.Dump
import SqlScript.Binary64.Layout
import SqlScript.Event
import SqlScript.Tree.Basic

/-! Dumps of tokens, failures and trees. Of a node's span the dump shows the byte offsets. -/
namespace SqlScript

/-- Numbers have a layout of their own in dumps. -/
def Binary64.dump (x : Binary64) : Dump := .word (Layout.dump.write x)

def Kind.dump : Kind → Dump
  | number value => .wrap "Number" value.dump
  | string value => .wrap "String" (.quoted value)
  | name text => .wrap "Id" (.quoted text)
  | keyword word => .wrap "Keyword" (.quoted word)
  | symbol text => .wrap "Symbol" (.quoted text)

/-- The source is left out: its text would stand there once for every token. -/
def Token.dump (t : Token) : Dump :=
  .record "Token" [("kind", t.kind.dump), ("raw", .quoted t.raw), ("position", .nat t.position)]

/-- Of the text there is only the length, in bytes. -/
def Source.dump (s : Source) : Dump :=
  .record "SourceContext" [("file_name", .quoted s.file), ("len", .nat s.text.utf8ByteSize)]

def ScanReason.dump : ScanReason → Dump
  | unexpectedCharacter => .word "UnexpectedCharacter"
  | unterminatedString => .word "UnterminatedString"
  | unterminatedName => .word "UnterminatedQuotedIdentifier"

def ScanError.dump (e : ScanError) : Dump :=
  .record "LexError" [("position", .nat e.position), ("remaining", .quoted e.remaining),
    ("reason", e.reason.dump)]

/-- The token that is complained of, and the message. -/
def Diagnostic.dump (d : Diagnostic) : Dump :=
  .record "ParseError" [("token", d.token.dump), ("message", .quoted d.message)]

/-- The settings of a reader. -/
def dumpSettings (maxDepth : Nat) : Dump := .record "ParserConfig" [("max_depth", .nat maxDepth)]

/-- A node with the offsets of its first and last token. -/
def Span.dump (s : Span Token) (node : Dump) : Dump :=
  .record "Spanned" [("node", node), ("first", .nat s.first.position),
    ("last", .nat s.last.position)]

def TableRef.dump (t : TableRef) : Dump :=
  .record "TableRef" [("db", .option (t.database.map .quoted)), ("table", .quoted t.table)]

def ColumnRef.dump (c : ColumnRef) : Dump :=
  .record "ColumnRef" [("table", .option (c.table.map .quoted)), ("column", .quoted c.column)]

def Operator.dump : Operator → Dump
  | add => .word "Add"
  | sub => .word "Sub"
  | mul => .word "Mul"
  | div => .word "Div"
  | eq => .word "Eq"
  | notEq => .word "NotEq"
  | lt => .word "Lt"
  | gt => .word "Gt"
  | ltEq => .word "LtEq"
  | gtEq => .word "GtEq"
  | and => .word "And"
  | or => .word "Or"
  | is => .word "Is"

def Atom.dump : Atom → Dump
  | column ref => .wrap "Column" ref.dump
  | number value => .wrap "Number" (.record "NumberLiteral" [("value", value.dump)])
  | string value => .wrap "String" (.record "StringLiteral" [("value", .quoted value)])
  | bool value => .wrap "Bool" (.record "BoolLiteral" [("value", .word (toString value))])
  | null => .wrap "Null" (.word "NullLiteral")

mutual

def Operand.dump : Operand (Span Token) → Dump
  | .not span value => span.dump (.wrap "Not" (.record "NotExpr" [("value", value.dump)]))
  | .call span function args =>
    span.dump (.wrap "Call" (.record "FunctionCall"
      [("func_name", .quoted function), ("args", .list (Expr.dumps args))]))
  | .atom span value => span.dump value.dump

def Expr.dump : Expr (Span Token) → Dump
  | .postfixed span stack => span.dump (.record "Expr" [("stack", .list (Item.dumps stack))])

def Expr.dumps : List (Expr (Span Token)) → List Dump
  | [] => []
  | e :: es => e.dump :: Expr.dumps es

def Item.dump : Item (Span Token) → Dump
  | .operand value => .wrap "Operand" value.dump
  | .operator value => .wrap "Operator" (value.span.dump value.node.dump)

def Item.dumps : List (Item (Span Token)) → List Dump
  | [] => []
  | i :: is => i.dump :: Item.dumps is

end

def tableDump (t : Spanned (Span Token) TableRef) : Dump := t.span.dump t.node.dump

def columnDump (c : Spanned (Span Token) ColumnRef) : Dump := c.span.dump c.node.dump

def Clauses.dump (c : Spanned (Span Token) (Clauses (Span Token))) : Dump :=
  c.span.dump <| .record "TableExpr"
    [("from", .option (c.node.tables.map fun l =>
        l.span.dump (.record "FromClause" [("list", .list (l.node.map tableDump))]))),
      ("where_clause", .option (c.node.filter.map fun e =>
        e.span.dump (.record "WhereClause" [("expr", e.node.dump)]))),
      ("order_by", .option (c.node.order.map fun l =>
        l.span.dump (.record "OrderBy" [("columns", .list (l.node.map columnDump))])))]

/-- A list that a SELECT does not have is absent, and not empty. -/
def Statement.dump : Statement (Span Token) → Dump
  | use span database =>
    span.dump (.wrap "Use" (.record "UseStatement" [("database", .quoted database)]))
  | select span list clauses =>
    span.dump (.wrap "Select" (.record "SelectStatement"
      [("list", .option (if list.isEmpty then none else some (.list (Expr.dumps list)))),
        ("table_expr", .option (clauses.map Clauses.dump))]))
  | insert span into columns values =>
    span.dump (.wrap "Insert" (.record "InsertStatement"
      [("into", tableDump into), ("columns", .list (columns.map columnDump)),
        ("values", .list (Expr.dumps values))]))
  | delete span clauses =>
    span.dump (.wrap "Delete" (.record "DeleteStatement" [("table_expr", Clauses.dump clauses)]))

end SqlScript

import SqlScript.Json
import SqlScript.Tree.Basic

/-! Trees as JSON. Each node is an object whose first field, `type`, names the kind of node; fields
that hold nothing are left out, and so are spans. -/
namespace SqlScript

namespace Json

/-- A node of a tree. -/
def node (type : String) (fields : List (String × Json)) : Json :=
  object (("type", string type) :: fields)

/-- A field that is left out when there is nothing in it. -/
def fieldIfAny (key : String) (value : Option Json) : List (String × Json) :=
  (value.map fun v => (key, v)).toList

end Json

variable {α : Type}

def TableRef.toJson (t : TableRef) : Json :=
  .node "table_ref" (Json.fieldIfAny "db" (t.database.map .string) ++ [("table", .string t.table)])

def ColumnRef.toJson (c : ColumnRef) : Json :=
  .node "column" (Json.fieldIfAny "table" (c.table.map .string) ++ [("column", .string c.column)])

/-- Operators stand among operands and have a node of their own. -/
def Operator.toJson (o : Operator) : Json := .node "operator" [("operator", .string o.symbol)]

def Atom.toJson : Atom → Json
  | column ref => ref.toJson
  | number value => .node "number" [("value", .number value)]
  | string value => .node "string" [("value", .string value)]
  | bool value => .node "bool" [("value", .bool value)]
  | null => .node "null" []

mutual

def Operand.toJson : Operand α → Json
  | .not _ value => .node "not" [("value", value.toJson)]
  | .call _ function args =>
    .node "call" [("func_name", .string function), ("args", .array (Expr.listToJson args))]
  | .atom _ value => value.toJson

def Expr.toJson : Expr α → Json
  | .postfixed _ stack => .node "expr" [("stack", .array (Item.listToJson stack))]

def Expr.listToJson : List (Expr α) → List Json
  | [] => []
  | e :: es => e.toJson :: Expr.listToJson es

def Item.toJson : Item α → Json
  | .operand value => value.toJson
  | .operator value => value.node.toJson

def Item.listToJson : List (Item α) → List Json
  | [] => []
  | i :: is => i.toJson :: Item.listToJson is

end

def Clauses.toJson (c : Clauses α) : Json :=
  let refs := fun (l : List (Spanned α TableRef)) => Json.array (l.map fun t => t.node.toJson)
  let columns := fun (l : List (Spanned α ColumnRef)) => Json.array (l.map fun t => t.node.toJson)
  .node "table_expr" <|
    Json.fieldIfAny "from" (c.tables.map fun l => .node "from_clause" [("list", refs l.node)]) ++
    Json.fieldIfAny "where" (c.filter.map fun e =>
      .node "where_clause" [("expr", e.node.toJson)]) ++
    Json.fieldIfAny "order_by" (c.order.map fun l => .node "order_by" [("columns", columns l.node)])

def Statement.toJson : Statement α → Json
  | use _ database => .node "use" [("database", .string database)]
  | select _ list clauses =>
    .node "select" <|
      Json.fieldIfAny "list"
        (if list.isEmpty then none else some (.array (Expr.listToJson list))) ++
      Json.fieldIfAny "table_expr" (clauses.map fun c => c.node.toJson)
  | insert _ into columns values =>
    .node "insert" [("into", into.node.toJson),
      ("columns", .array (columns.map fun c => c.node.toJson)),
      ("values", .array (Expr.listToJson values))]
  | delete _ clauses => .node "delete" [("table_expr", clauses.node.toJson)]

/-- The text of a script's tree. -/
def scriptJson (statements : List (Statement α)) : String :=
  (Json.array (statements.map Statement.toJson)).pretty

end SqlScript

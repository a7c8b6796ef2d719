import SqlScript.Operator

/-! Why tokens are not a script. -/
namespace SqlScript

/-- What a list separated by commas consists of. -/
inductive Listed
  | expression
  | column
  | table
deriving DecidableEq, Repr

/-- What was missing, or could not stand where it stood. -/
inductive Cause
  | statement
  /-- USE without a name; what stood there instead, if anything did. -/
  | databaseName (found : Option Kind)
  /-- A comma without an item behind it. -/
  | listed (kind : Listed)
  | into
  | insertTable
  | opening
  | insertColumn
  | closing
  | values
  | insertValue
  /-- DELETE without FROM and WHERE. -/
  | deleteTable
  | fromTable
  | whereExpression
  | orderColumn
  | tableName
  | columnName
  | operandAfter (operator : Operator)
  | valueAfterNot
  | tooDeep
deriving DecidableEq, Repr

namespace Listed

def label : Listed → String
  | expression => "Expression"
  | column => "Column"
  | table => "Table reference"

end Listed

namespace Cause

def message : Cause → String
  | statement => "Statement expected"
  | databaseName found =>
    "Unexpected " ++ found.elim "end of input" Kind.label ++ ", USE requires a database name"
  | listed kind => kind.label ++ " expected"
  | into => "INTO expected"
  | insertTable => "INSERT requires a table reference"
  | opening => "( expected"
  | insertColumn => "Column specifier expected"
  | closing => ") expected"
  | values => "VALUES expected"
  | insertValue => "VALUES expects a list of expressions"
  | deleteTable => "Table reference expected"
  | fromTable => "FROM requires table name"
  | whereExpression => "WHERE requires expression"
  | orderColumn => "ORDER BY requires a column reference"
  | tableName => "Table name expected"
  | columnName => "Column name expected"
  | operandAfter operator => "Operand expected after " ++ operator.symbol
  | valueAfterNot => "Value expected after NOT"
  | tooDeep => "Expression nested too deeply"

end Cause

end SqlScript

import SqlScript.Grammar.Rule
import SqlScript.Grammar.Yard

/-! The grammar of expressions. An expression is a chain of operands with operators between them;
an operand is `NOT` before an operand, a call, a column or a literal, tried in this order. Operands
inside operands count against a depth limit, which ends the recursion too. -/
namespace SqlScript.Grammar

variable {σ : Type}

/-- A name, or two with a dot between them. After a dot a second name has to follow. -/
def qualified (missing : Cause) : Rule σ (Spanned (Span σ) (Option String × String)) :=
  Rule.name.andThen fun first => do
    match ← (Rule.symbol ".").optional with
    | none => pure ⟨first.span, none, first.node⟩
    | some _ =>
      let second ← Rule.name.require missing
      pure ⟨first.span.through second.span, some first.node, second.node⟩

def tableRef : Rule σ (Spanned (Span σ) TableRef) :=
  (qualified .tableName).map fun ⟨span, database, table⟩ => ⟨span, ⟨database, table⟩⟩

def columnRef : Rule σ (Spanned (Span σ) ColumnRef) :=
  (qualified .columnName).map fun ⟨span, table, column⟩ => ⟨span, ⟨table, column⟩⟩

/-- The value that a token stands for by itself. -/
def literalOf : Kind → Option Atom
  | .number value => some (.number value)
  | .string value => some (.string value)
  | .keyword "TRUE" => some (.bool true)
  | .keyword "FALSE" => some (.bool false)
  | .keyword "NULL" => some .null
  | _ => none

def literal : Rule σ (Operand (Span σ)) :=
  (Rule.token literalOf).map fun ⟨span, value⟩ => .atom span value

def column : Rule σ (Operand (Span σ)) :=
  columnRef.map fun ⟨span, ref⟩ => .atom span (.column ref)

def operator : Rule σ (Spanned (Span σ) Operator) := Rule.token Operator.ofKind?

/-- `NOT` and its operand. If that is absent, the failure is at `NOT` itself. -/
def negation (operand : Rule σ (Operand (Span σ))) : Rule σ (Operand (Span σ)) :=
  (Rule.keyword "NOT").andThen fun negation => do
    let value ← operand.requireOr fun _ => ⟨.valueAfterNot, some negation.span.first⟩
    pure (.not (negation.span.through value.span) value)

/-- The span of a chain: up to its last operand. -/
def chainSpan {β : Type} (first : Operand (Span σ)) (links : List (β × Operand (Span σ))) :
    Span σ :=
  match links.getLast? with
  | none => first.span
  | some (_, last) => first.span.through last.span

/-- Operands with operators between them, put into postfix order. -/
def expressionOf (operand : Rule σ (Operand (Span σ))) : Rule σ (Expr (Span σ)) :=
  (operand.chain operator fun op => .operandAfter op.node).map fun (first, links) =>
    .postfixed (chainSpan first links) (Yard.postfixed first links)

/-- A name and, between parentheses, any number of arguments. -/
def call (argument : Rule σ (Expr (Span σ))) : Rule σ (Operand (Span σ)) :=
  (Rule.name.both (Rule.symbol "(")).andThen fun (function, _) => do
    let args ← (argument.commaList .expression).optional
    let close ← (Rule.symbol ")").require .closing
    let span := function.span.through close.span
    pure (.call span function.node (args.elim [] fun (first, more) => first :: more))

/-- An operand with at most `depth` operands inside one another, itself included. -/
def operand : Nat → Rule σ (Operand (Span σ))
  | 0 => .refuse .tooDeep
  | depth + 1 => .delay fun _ =>
    negation (operand depth) <|> call (expressionOf (operand depth)) <|> column <|> literal

/-- An expression whose operands are at most `depth` deep. -/
def expression (depth : Nat) : Rule σ (Expr (Span σ)) := expressionOf (operand depth)

end SqlScript.Grammar

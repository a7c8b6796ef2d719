import SqlScript.Diagnostic
import SqlScript.Grammar.Statement

/-! Reading tokens: as a whole script, or one construct at a given token. There is at least one
token, so that a failure always has a token to point at: past the end it is the last one. -/
namespace SqlScript

/-- Why tokens cannot be read, and the token that shows it. -/
structure SyntaxError where
  token : Token
  cause : Cause
deriving DecidableEq, Repr

namespace SyntaxError

def diagnostic (e : SyntaxError) : Diagnostic := ⟨e.token, e.cause.message⟩

end SyntaxError

/-- Tokens to read from, and how deep operands may lie inside one another. -/
structure Reader where
  first : Token
  more : List Token
  maxDepth : Nat

namespace Reader

/-- The depth that is allowed unless another is asked for. -/
def defaultDepth : Nat := 64

def ofTokens? (maxDepth : Nat) : List Token → Option Reader
  | [] => none
  | first :: more => some ⟨first, more, maxDepth⟩

def tokens (r : Reader) : List Token := r.first :: r.more

def last (r : Reader) : Token := r.tokens.getLast (List.cons_ne_nil _ _)

/-- What the grammar reads: each token is its own mark. -/
def input (r : Reader) : Input Token := r.tokens.map fun t => (t.kind, t)

/-- A failure with its token. -/
def resolve (r : Reader) (failure : Failure Token) : SyntaxError :=
  ⟨failure.mark.getD r.last, failure.cause⟩

/-- Tries a rule at the token with a given index. On a match gives the index behind what was read;
behind the end there are no tokens, but the rule is tried all the same. -/
def readAt {α : Type} (r : Reader) (rule : Rule Token α) (index : Nat) :
    Except SyntaxError (Option (Nat × α)) :=
  match rule.read (r.input.drop index) with
  | .absent => .ok none
  | .matched value rest => .ok (some (r.tokens.length - rest.length, value))
  | .malformed failure => .error (r.resolve failure)

def expression (r : Reader) (index : Nat) :
    Except SyntaxError (Option (Nat × Expr (Span Token))) :=
  r.readAt (Grammar.expression r.maxDepth) index

def operand (r : Reader) (index : Nat) : Except SyntaxError (Option (Nat × Operand (Span Token))) :=
  r.readAt (Grammar.operand r.maxDepth) index

def column (r : Reader) (index : Nat) :
    Except SyntaxError (Option (Nat × Spanned (Span Token) ColumnRef)) :=
  r.readAt Grammar.columnRef index

/-- The first tokens of the ORDER BY clauses that belong to nothing, and the statements. -/
def script (r : Reader) : List Token × Except SyntaxError (List (Statement (Span Token))) :=
  let reading := Grammar.script r.maxDepth r.input
  (reading.dropped, reading.result.mapError r.resolve)

end Reader

end SqlScript

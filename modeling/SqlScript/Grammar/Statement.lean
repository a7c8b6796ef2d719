import SqlScript.Grammar.Expression

/-! The grammar of statements and scripts. -/
namespace SqlScript

namespace Clauses

variable {σ : Type}

/-- From the first clause that is there to the last one. -/
def span? (c : Clauses (Span σ)) : Option (Span σ) :=
  let spans := (c.tables.map Spanned.span).toList ++ (c.filter.map Spanned.span).toList ++
    (c.order.map Spanned.span).toList
  match spans.head?, spans.getLast? with
  | some first, some last => some (first.through last)
  | _, _ => none

/-- The clauses of a statement count only if FROM or WHERE is among them. -/
def kept? (c : Clauses (Span σ)) : Option (Spanned (Span σ) (Clauses (Span σ))) :=
  if c.tables.isSome || c.filter.isSome then c.span?.map fun span => ⟨span, c⟩ else none

/-- An ORDER BY without FROM and WHERE, which is read but belongs to nothing. -/
def dropped? (c : Clauses (Span σ)) : Option (Span σ) :=
  if c.tables.isSome || c.filter.isSome then none else c.order.map Spanned.span

end Clauses

namespace Grammar

variable {σ : Type}

/-- What a statement came to: the first token of an ORDER BY that was dropped, and the statement,
unless it cannot be without what was dropped. -/
structure Draft (σ : Type) where
  dropped : Option σ
  statement : Except (Failure σ) (Statement (Span σ))

namespace Draft

/-- A statement from which nothing was dropped. -/
def plain (statement : Statement (Span σ)) : Draft σ := ⟨none, .ok statement⟩

end Draft

/-- The span of a list with at least one entry. -/
def listSpan {α : Type} (span : α → Span σ) (first : α) (more : List α) : Span σ :=
  (span first).through (span (more.getLast?.getD first))

def fromClause : Rule σ (Spanned (Span σ) (List (Spanned (Span σ) TableRef))) :=
  (Rule.keyword "FROM").andThen fun key => do
    let (first, more) ← (tableRef.commaList .table).require .fromTable
    pure ⟨key.span.through (listSpan Spanned.span first more), first :: more⟩

def whereClause (depth : Nat) : Rule σ (Spanned (Span σ) (Expr (Span σ))) :=
  (Rule.keyword "WHERE").andThen fun key => do
    let condition ← (expression depth).require .whereExpression
    pure ⟨key.span.through condition.span, condition⟩

/-- `ORDER` alone begins no clause. -/
def orderClause : Rule σ (Spanned (Span σ) (List (Spanned (Span σ) ColumnRef))) :=
  ((Rule.keyword "ORDER").both (Rule.keyword "BY")).andThen fun (key, _) => do
    let (first, more) ← (columnRef.commaList .column).require .orderColumn
    pure ⟨key.span.through (listSpan Spanned.span first more), first :: more⟩

/-- The clauses that are there, in this order. -/
def clauses (depth : Nat) : Step σ (Clauses (Span σ)) := do
  let tables ← fromClause.optional
  let filter ← (whereClause depth).optional
  let order ← orderClause.optional
  pure ⟨tables, filter, order⟩

def useStatement : Rule σ (Draft σ) :=
  (Rule.keyword "USE").andThen fun key => do
    let found ← Step.peek
    let database ← Rule.name.require (.databaseName (found.map Prod.fst))
    pure (.plain (.use (key.span.through database.span) database.node))

/-- SELECT alone is a statement; clauses follow only a list. -/
def selectStatement (depth : Nat) : Rule σ (Draft σ) :=
  (Rule.keyword "SELECT").andThen fun key => do
    match ← ((expression depth).commaList .expression).optional with
    | none => pure (.plain (.select key.span [] none))
    | some (first, more) =>
      let clauses ← clauses depth
      let listed := key.span.through (listSpan Expr.span first more)
      let span := (clauses.span?.map listed.through).getD listed
      pure ⟨clauses.dropped?.map Span.first, .ok (.select span (first :: more) clauses.kept?)⟩

def insertStatement (depth : Nat) : Rule σ (Draft σ) :=
  (Rule.keyword "INSERT").andThen fun key => do
    let _ ← (Rule.keyword "INTO").require .into
    let table ← tableRef.require .insertTable
    let _ ← (Rule.symbol "(").require .opening
    let (column, columns) ← (columnRef.commaList .column).require .insertColumn
    let _ ← (Rule.symbol ")").require .closing
    let _ ← (Rule.keyword "VALUES").require .values
    let _ ← (Rule.symbol "(").require .opening
    let (value, values) ← ((expression depth).commaList .expression).require .insertValue
    let close ← (Rule.symbol ")").require .closing
    let span := key.span.through close.span
    pure (.plain (.insert span table (column :: columns) (value :: values)))

/-- Without FROM and WHERE there is nothing to delete from: that fails at the token behind DELETE,
once the clauses have been read. -/
def deleteStatement (depth : Nat) : Rule σ (Draft σ) :=
  (Rule.keyword "DELETE").andThen fun key => do
    let found ← Step.peek
    let clauses ← clauses depth
    pure ⟨clauses.dropped?.map Span.first,
      match clauses.kept? with
      | some kept => .ok (.delete (key.span.through kept.span) kept)
      | none => .error ⟨.deleteTable, found.map Prod.snd⟩⟩

def statement (depth : Nat) : Rule σ (Draft σ) :=
  useStatement <|> selectStatement depth <|> insertStatement depth <|> deleteStatement depth

/-- What reading a script came to: the first tokens of all ORDER BY clauses that were dropped, and
the statements or the first failure. -/
structure Reading (σ : Type) where
  dropped : List σ
  result : Except (Failure σ) (List (Statement (Span σ)))

namespace Reading

/-- Puts what was read first before a reading. -/
def prepend (draft : Draft σ) (statement : Statement (Span σ)) (r : Reading σ) : Reading σ :=
  ⟨draft.dropped.toList ++ r.dropped, r.result.map (statement :: ·)⟩

end Reading

/-- Reads statements up to the end. Semicolons may stand before, between and behind them. -/
def script (depth : Nat) : Input σ → Reading σ
  | [] => ⟨[], .ok []⟩
  | (kind, mark) :: input =>
    if kind = .symbol ";" then script depth input
    else match _h : (statement depth).read ((kind, mark) :: input) with
      | .absent => ⟨[], .error ⟨.statement, some mark⟩⟩
      | .malformed failure => ⟨[], .error failure⟩
      | .matched draft rest =>
        match draft.statement with
        | .error failure => ⟨draft.dropped.toList, .error failure⟩
        | .ok statement => (script depth rest).prepend draft statement
termination_by input => input.length
decreasing_by
  · exact Nat.lt_succ_self _
  · exact (statement depth).shrinks _h

end Grammar

end SqlScript

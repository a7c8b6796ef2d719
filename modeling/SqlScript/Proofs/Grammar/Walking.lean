import SqlScript.Proofs.Grammar.Indices
import SqlScript.Proofs.Grammar.Marks

/-!
# Walking from index to index

The grammar is told what is left of the tokens, and operands lie inside one another only so deep.
Here reading has the index of a token instead and adds to it, and goes into loops and into operands
as often as the tokens ask for. Two things could go wrong: an index could get too large, or a loop
or an operand could begin where the one around it began (`Slip`). Neither happens, wherever reading
begins and whatever the limit is: it comes to what the grammar reads, at an index that is further
on if anything was found (`Finds`), and never beyond the tokens (`Takes`).
-/

namespace SqlScript

/-- What must not happen to the index. -/
inductive Slip
  /-- The next index would be too large. -/
  | overflow
  /-- What comes next would begin at the same index again, or before it. -/
  | standstill

/-- Why reading stops. -/
inductive Halt
  | slip (slip : Slip)
  | failed (e : SyntaxError)

/-- How many tokens there are from an index on. -/
def Reader.left (r : Reader) (index : Nat) : Nat := r.tokens.length - index

theorem Reader.left_le (r : Reader) {index next : Nat} (h : index ≤ next) :
    r.left next ≤ r.left index :=
  Nat.sub_le_sub_left h r.tokens.length

theorem Reader.left_lt {r : Reader} {index next : Nat} (hlt : index < next)
    (hle : next ≤ r.tokens.length) : r.left next < r.left index := by
  unfold Reader.left
  omega

/-- Reading that goes on from an index. -/
abbrev Walking (α : Type) := StateT Nat (Except Halt) α

namespace Walking

variable {α β : Type}

section Run

variable (index : Nat)

@[simp] theorem run_pure (value : α) : (pure value : Walking α) index = .ok (value, index) := rfl

@[simp] theorem run_get : (get : Walking Nat) index = .ok (index, index) := rfl

@[simp] theorem run_bind (program : Walking α) (next : α → Walking β) :
    (program >>= next) index =
      match program index with
      | .ok (value, index) => next value index
      | .error halt => .error halt := by
  show Except.bind _ _ = _
  cases program index <;> rfl

end Run

/-! ## Programs -/

variable (r : Reader)

/-- The next token, if it is of a kind that is accepted. -/
def token (accept : Kind → Option α) : Walking (Option (Spanned (Span Token) α)) := fun index =>
  match r.tokens[index]? with
  | none => .ok (none, index)
  | some t =>
    match accept t.kind with
    | none => .ok (none, index)
    | some value =>
      if index + 1 < UInt64.size then .ok (some ⟨.single t, value⟩, index + 1)
      else .error (.slip .overflow)

def exactly (kind : Kind) : Walking (Option (Spanned (Span Token) Unit)) :=
  token r fun k => if k = kind then some () else none

def keyword (word : String) : Walking (Option (Spanned (Span Token) Unit)) :=
  exactly r (.keyword word)

def symbol (text : String) : Walking (Option (Spanned (Span Token) Unit)) :=
  exactly r (.symbol text)

def name : Walking (Option (Spanned (Span Token) String)) :=
  token r fun
    | .name text => some text
    | _ => none

def peek : Walking (Option (Kind × Token)) := fun index =>
  .ok ((r.tokens[index]?).map fun t => (t.kind, t), index)

section Combinators

variable (rule : Walking (Option α))

def map (f : α → β) : Walking (Option β) := do return (← rule).map f

def orElse (other : Walking (Option α)) : Walking (Option α) := do
  match ← rule with
  | some value => return some value
  | none => other

/-- If the second is absent, the first is given up too. -/
def both (other : Walking (Option β)) : Walking (Option (α × β)) := do
  let start ← get
  match ← rule with
  | none => return none
  | some first =>
    match ← other with
    | some second => return some (first, second)
    | none =>
      set start
      return none

def andThen (next : α → Walking β) : Walking (Option β) := do
  match ← rule with
  | some value => some <$> next value
  | none => return none

def requireOr (failure : Nat → SyntaxError) : Walking α := do
  let start ← get
  match ← rule with
  | some value => return value
  | none => throw (.failed (failure start))

def require (cause : Cause) : Walking α := requireOr rule fun start => ⟨r.tokenAt start, cause⟩

/-- A loop without a limit. Every round has to begin further on than the one before. -/
def links (separator : Walking (Option β)) (missing : β → Cause) (index : Nat) :
    Except Halt (List (β × α) × Nat) :=
  match separator index with
  | .error halt => .error halt
  | .ok (none, _) => .ok ([], index)
  | .ok (some link, middle) =>
    match require r rule (missing link) middle with
    | .error halt => .error halt
    | .ok (value, next) =>
      if _further : r.left next < r.left index then
        match links separator missing next with
        | .error halt => .error halt
        | .ok (more, stop) => .ok ((link, value) :: more, stop)
      else .error (.slip .standstill)
termination_by r.left index

def chain (separator : Walking (Option β)) (missing : β → Cause) :
    Walking (Option (α × List (β × α))) :=
  andThen rule fun first => do
    let more ← links r rule separator missing
    return (first, more)

def commaList (kind : Listed) : Walking (Option (α × List α)) :=
  map (chain r rule (symbol r ",") fun _ => .listed kind) fun (first, more) =>
    (first, more.map Prod.snd)

end Combinators

/-! ### The grammar -/

def qualified (missing : Cause) :
    Walking (Option (Spanned (Span Token) (Option String × String))) :=
  andThen (name r) fun first => do
    match ← symbol r "." with
    | none => return ⟨first.span, none, first.node⟩
    | some _ =>
      let second ← require r (name r) missing
      return ⟨first.span.through second.span, some first.node, second.node⟩

def tableRef : Walking (Option (Spanned (Span Token) TableRef)) :=
  map (qualified r .tableName) fun ⟨span, database, table⟩ => ⟨span, ⟨database, table⟩⟩

def columnRef : Walking (Option (Spanned (Span Token) ColumnRef)) :=
  map (qualified r .columnName) fun ⟨span, table, column⟩ => ⟨span, ⟨table, column⟩⟩

def literal : Walking (Option (Operand (Span Token))) :=
  map (token r Grammar.literalOf) fun ⟨span, value⟩ => .atom span value

def column : Walking (Option (Operand (Span Token))) :=
  map (columnRef r) fun ⟨span, ref⟩ => .atom span (.column ref)

def operator : Walking (Option (Spanned (Span Token) Operator)) := token r Operator.ofKind?

section Operand

variable (inner : Walking (Option (Operand (Span Token))))

def negation : Walking (Option (Operand (Span Token))) :=
  andThen (keyword r "NOT") fun key => do
    let value ← requireOr inner fun _ => ⟨key.span.first, .valueAfterNot⟩
    return .not (key.span.through value.span) value

def expressionOf : Walking (Option (Expr (Span Token))) :=
  map (chain r inner (operator r) fun op => .operandAfter op.node) fun (first, links) =>
    .postfixed (Grammar.chainSpan first links) (Yard.postfixed first links)

def call : Walking (Option (Operand (Span Token))) :=
  andThen (both (name r) (symbol r "(")) fun (function, _) => do
    let args ← commaList r (expressionOf r inner) .expression
    let close ← require r (symbol r ")") .closing
    let span := function.span.through close.span
    return .call span function.node (args.elim [] fun (first, more) => first :: more)

end Operand

/-- An operand inside of so many others. Whatever the limit, every operand inside this one has to
begin further on. -/
def operand (depth index : Nat) : Except Halt (Option (Operand (Span Token)) × Nat) :=
  if r.maxDepth ≤ depth then .error (.failed ⟨r.tokenAt index, .tooDeep⟩)
  else
    let inner : Walking (Option (Operand (Span Token))) := fun next =>
      if _further : r.left next < r.left index then operand (depth + 1) next
      else .error (.slip .standstill)
    orElse (negation r inner) (orElse (call r inner) (orElse (column r) (literal r))) index
termination_by r.left index

variable (depth : Nat)

def expression : Walking (Option (Expr (Span Token))) := expressionOf r (operand r depth)

def fromClause : Walking (Option (Spanned (Span Token) (List (Spanned (Span Token) TableRef)))) :=
  andThen (keyword r "FROM") fun key => do
    let (first, more) ← require r (commaList r (tableRef r) .table) .fromTable
    return ⟨key.span.through (Grammar.listSpan Spanned.span first more), first :: more⟩

def whereClause : Walking (Option (Spanned (Span Token) (Expr (Span Token)))) :=
  andThen (keyword r "WHERE") fun key => do
    let condition ← require r (expression r depth) .whereExpression
    return ⟨key.span.through condition.span, condition⟩

def orderClause : Walking (Option (Spanned (Span Token) (List (Spanned (Span Token) ColumnRef)))) :=
  andThen (both (keyword r "ORDER") (keyword r "BY")) fun (key, _) => do
    let (first, more) ← require r (commaList r (columnRef r) .column) .orderColumn
    return ⟨key.span.through (Grammar.listSpan Spanned.span first more), first :: more⟩

def clauses : Walking (Clauses (Span Token)) := do
  let tables ← fromClause r
  let filter ← whereClause r depth
  let order ← orderClause r
  return ⟨tables, filter, order⟩

/-! ### Statements, behind their first words -/

section Bodies

variable (key : Spanned (Span Token) Unit)

def useBody : Walking (Grammar.Draft Token) := do
  let found ← peek r
  let database ← require r (name r) (.databaseName (found.map Prod.fst))
  return .plain (.use (key.span.through database.span) database.node)

def selectBody : Walking (Grammar.Draft Token) := do
  match ← commaList r (expression r depth) .expression with
  | none => return .plain (.select key.span [] none)
  | some (first, more) =>
    let clauses ← clauses r depth
    let listed := key.span.through (Grammar.listSpan Expr.span first more)
    let span := (clauses.span?.map listed.through).getD listed
    return ⟨clauses.dropped?.map Span.first, .ok (.select span (first :: more) clauses.kept?)⟩

def insertBody : Walking (Grammar.Draft Token) := do
  let _ ← require r (keyword r "INTO") .into
  let table ← require r (tableRef r) .insertTable
  let _ ← require r (symbol r "(") .opening
  let (column, columns) ← require r (commaList r (columnRef r) .column) .insertColumn
  let _ ← require r (symbol r ")") .closing
  let _ ← require r (keyword r "VALUES") .values
  let _ ← require r (symbol r "(") .opening
  let (value, values) ← require r (commaList r (expression r depth) .expression) .insertValue
  let close ← require r (symbol r ")") .closing
  let span := key.span.through close.span
  return .plain (.insert span table (column :: columns) (value :: values))

def deleteBody : Walking (Grammar.Draft Token) := do
  let found ← peek r
  let clauses ← clauses r depth
  return ⟨clauses.dropped?.map Span.first,
    match clauses.kept? with
    | some kept => .ok (.delete (key.span.through kept.span) kept)
    | none => .error ⟨.deleteTable, found.map Prod.snd⟩⟩

end Bodies

def useStatement : Walking (Option (Grammar.Draft Token)) :=
  andThen (keyword r "USE") (useBody r)

def selectStatement : Walking (Option (Grammar.Draft Token)) :=
  andThen (keyword r "SELECT") (selectBody r depth)

def insertStatement : Walking (Option (Grammar.Draft Token)) :=
  andThen (keyword r "INSERT") (insertBody r depth)

def deleteStatement : Walking (Option (Grammar.Draft Token)) :=
  andThen (keyword r "DELETE") (deleteBody r depth)

def statement : Walking (Option (Grammar.Draft Token)) :=
  orElse (useStatement r) <| orElse (selectStatement r depth) <|
    orElse (insertStatement r depth) (deleteStatement r depth)

/-- Goes behind the token at an index, whatever it is. -/
def skip : Walking Unit := fun index =>
  if index + 1 < UInt64.size then .ok ((), index + 1) else .error (.slip .overflow)

/-- A statement that has to be there. The token at the index tells which one it is, and its word is
not looked for once more. Where there is no token the last one stands in for it, so that a script
must not ask behind the end: if SELECT is the last token, it would be a statement there once more,
and one that ends beyond the tokens. -/
def dispatch (index : Nat) : Except Halt (Grammar.Draft Token × Nat) :=
  let t := r.tokenAt index
  let body (next : Spanned (Span Token) Unit → Walking (Grammar.Draft Token)) :=
    (skip >>= fun _ => next ⟨.single t, ()⟩) index
  if t.kind = .keyword "USE" then body (useBody r)
  else if t.kind = .keyword "SELECT" then body (selectBody r depth)
  else if t.kind = .keyword "INSERT" then body (insertBody r depth)
  else if t.kind = .keyword "DELETE" then body (deleteBody r depth)
  else .error (.failed ⟨t, .statement⟩)

/-- Goes behind all semicolons. -/
def semicolons (index : Nat) : Except Halt Nat :=
  match symbol r ";" index with
  | .error halt => .error halt
  | .ok (none, _) => .ok index
  | .ok (some _, next) =>
    if _further : r.left next < r.left index then semicolons next
    else .error (.slip .standstill)
termination_by r.left index

/-- Statements up to the end. They are only looked for where there is a token. -/
def script (index : Nat) : Except Halt (List (Statement (Span Token))) :=
  match semicolons r index with
  | .error halt => .error halt
  | .ok start =>
    if r.tokens.length ≤ start then .ok []
    else
      match dispatch r 0 start with
      | .error halt => .error halt
      | .ok (draft, next) =>
        match draft.statement with
        | .error failure => .error (.failed (r.resolve failure))
        | .ok statement =>
          if _further : r.left next < r.left index then
            match script next with
            | .error halt => .error halt
            | .ok more => .ok (statement :: more)
          else .error (.slip .standstill)
termination_by r.left index

/-! ## What programs do -/

/-- What a program comes to at an index, given what a rule comes to on the tokens from there on. A
match ends further on, and not beyond the tokens. -/
inductive Finds (index : Nat) : Outcome Token α → Except Halt (Option α × Nat) → Prop
  | absent : Finds index .absent (.ok (none, index))
  | matched {value next} (hlt : index < next) (hle : next ≤ r.tokens.length) :
      Finds index (.matched value (r.input.drop next)) (.ok (some value, next))
  | malformed (failure) : Finds index (.malformed failure) (.error (.failed (r.resolve failure)))

/-- The same for a step, which may also take nothing, behind the end as well. -/
inductive Takes (index : Nat) :
    Except (Failure Token) (α × Input Token) → Except Halt (α × Nat) → Prop
  | ok {value next} (hle : index ≤ next) (hend : next ≤ max index r.tokens.length) :
      Takes index (.ok (value, r.input.drop next)) (.ok (value, next))
  | error (failure) : Takes index (.error failure) (.error (.failed (r.resolve failure)))

/-- A program finds what a rule reads, from all indices with fewer than `b` tokens left. There must
be an index for every token. -/
def Matches (b : Nat) (program : Walking (Option α)) (rule : Rule Token α) : Prop :=
  r.tokens.length < UInt64.size → ∀ index < UInt64.size, r.left index < b →
    Finds r index (rule.read (r.input.drop index)) (program index)

/-- A program takes what a step takes, from the same indices. -/
def Follows (b : Nat) (program : Walking α) (step : Step Token α) : Prop :=
  r.tokens.length < UInt64.size → ∀ index < UInt64.size, r.left index < b →
    Takes r index (step.read (r.input.drop index)) (program index)

variable {r} {b : Nat}

namespace Follows

theorem pure (value : α) : Follows r b (Pure.pure value) (Pure.pure value) :=
  fun _ index _ _ => .ok (Nat.le_refl index) (Nat.le_max_left _ _)

theorem bind {program : Walking α} {step : Step Token α} {next : α → Walking β}
    {next' : α → Step Token β} (hprogram : Follows r b program step)
    (hnext : ∀ x, Follows r b (next x) (next' x)) :
    Follows r b (program >>= next) (step >>= next') := by
  intro hlength index hindex hb
  have htakes := hprogram hlength index hindex hb
  rw [run_bind, Step.read_bind]
  generalize step.read (r.input.drop index) = read, program index = run at htakes ⊢
  cases htakes with
  | error failure => exact .error failure
  | @ok value middle hle hend =>
    have hrest := hnext value hlength middle (by omega) (Nat.lt_of_le_of_lt (r.left_le hle) hb)
    simp only
    generalize (next' value).read (r.input.drop middle) = read, next value middle = run at hrest ⊢
    cases hrest with
    | error failure => exact .error failure
    | ok hle' hend' => exact .ok (Nat.le_trans hle hle') (by omega)

theorem peek : Follows r b (peek r) Step.peek := by
  intro _ index _ _
  have hhead : (r.input.drop index).head? = (r.tokens[index]?).map fun t => (t.kind, t) := by
    simp [Reader.input, List.head?_drop]
  simp only [Walking.peek, Step.peek, ← hhead]
  exact .ok (Nat.le_refl index) (Nat.le_max_left _ _)

theorem mono {b' : Nat} {program : Walking α} {step : Step Token α} (h : Follows r b program step)
    (hle : b' ≤ b) : Follows r b' program step :=
  fun hlength index hindex hb => h hlength index hindex (Nat.lt_of_lt_of_le hb hle)

end Follows

namespace Matches

theorem token (accept : Kind → Option α) : Matches r b (token r accept) (Rule.token accept) := by
  intro hlength index hindex _
  cases ht : r.tokens[index]? with
  | none =>
    simp only [Walking.token, Rule.token, ht, Reader.drop_input_of_none ht]
    exact .absent
  | some t =>
    have hlt : index < r.tokens.length := (List.getElem?_eq_some_iff.mp ht).1
    simp only [Walking.token, Rule.token, ht, Reader.drop_input_of_some ht]
    cases accept t.kind with
    | none => exact .absent
    | some value =>
      simp only [if_pos (show index + 1 < UInt64.size by omega)]
      exact .matched (Nat.lt_succ_self index) hlt

theorem keyword (word : String) : Matches r b (keyword r word) (Rule.keyword word) := token _

theorem symbol (text : String) : Matches r b (symbol r text) (Rule.symbol text) := token _

theorem name : Matches r b (name r) Rule.name := token _

theorem operator : Matches r b (operator r) Grammar.operator := token _

variable {program : Walking (Option α)} {rule : Rule Token α}

theorem mono {b' : Nat} (h : Matches r b program rule) (hle : b' ≤ b) : Matches r b' program rule :=
  fun hlength index hindex hb => h hlength index hindex (Nat.lt_of_lt_of_le hb hle)

theorem map (hrule : Matches r b program rule) (f : α → β) :
    Matches r b (program.map f) (rule.map f) := by
  intro hlength index hindex hb
  have hfinds := hrule hlength index hindex hb
  simp only [Walking.map, run_bind, run_pure, Rule.map]
  generalize rule.read (r.input.drop index) = read, program index = run at hfinds ⊢
  cases hfinds with
  | absent => exact .absent
  | matched hlt hle => exact .matched hlt hle
  | malformed failure => exact .malformed failure

theorem optional (hrule : Matches r b program rule) : Follows r b program rule.optional := by
  intro hlength index hindex hb
  have hfinds := hrule hlength index hindex hb
  simp only [Rule.optional]
  generalize rule.read (r.input.drop index) = read, program index = run at hfinds ⊢
  cases hfinds with
  | absent => exact .ok (Nat.le_refl index) (Nat.le_max_left _ _)
  | matched hlt hle => exact .ok (Nat.le_of_lt hlt) (Nat.le_trans hle (Nat.le_max_right _ _))
  | malformed failure => exact .error failure

theorem orElse {program' : Walking (Option α)} {other : Rule Token α}
    (hrule : Matches r b program rule) (hother : Matches r b program' other) :
    Matches r b (program.orElse program') (rule <|> other) := by
  intro hlength index hindex hb
  have hfinds := hrule hlength index hindex hb
  have hfinds' := hother hlength index hindex hb
  simp only [Walking.orElse, run_bind, HOrElse.hOrElse, OrElse.orElse, Rule.orElse]
  generalize rule.read (r.input.drop index) = read, program index = run at hfinds ⊢
  cases hfinds with
  | absent => exact hfinds'
  | matched hlt hle => exact .matched hlt hle
  | malformed failure => exact .malformed failure

theorem both {program' : Walking (Option β)} {other : Rule Token β}
    (hrule : Matches r b program rule) (hother : Matches r b program' other) :
    Matches r b (program.both program') (rule.both other) := by
  intro hlength index hindex hb
  have hfinds := hrule hlength index hindex hb
  simp only [Walking.both, run_bind, run_get, Rule.both]
  generalize rule.read (r.input.drop index) = read, program index = run at hfinds ⊢
  cases hfinds with
  | absent => exact .absent
  | malformed failure => exact .malformed failure
  | @matched value middle hlt hle =>
    have hfinds' := hother hlength middle (by omega) (Nat.lt_trans (Reader.left_lt hlt hle) hb)
    simp only [run_bind]
    generalize other.read (r.input.drop middle) = read, program' middle = run at hfinds' ⊢
    cases hfinds' with
    | absent => exact .absent
    | malformed failure => exact .malformed failure
    | matched hlt' hle' => exact .matched (Nat.lt_trans hlt hlt') hle'

/-- Behind a match there are fewer tokens left, so that a program is enough which follows from
there. -/
theorem andThen_further {next : α → Walking β} {next' : α → Step Token β}
    (hrule : Matches r (b + 1) program rule) (hnext : ∀ x, Follows r b (next x) (next' x)) :
    Matches r (b + 1) (program.andThen next) (rule.andThen next') := by
  intro hlength index hindex hb
  have hfinds := hrule hlength index hindex hb
  simp only [Walking.andThen, run_bind, Rule.andThen]
  generalize rule.read (r.input.drop index) = read, program index = run at hfinds ⊢
  cases hfinds with
  | absent => exact .absent
  | malformed failure => exact .malformed failure
  | @matched value middle hlt hle =>
    have hfewer : r.left middle < b :=
      Nat.lt_of_lt_of_le (Reader.left_lt hlt hle) (Nat.le_of_lt_succ hb)
    have hrest := hnext value hlength middle (by omega) hfewer
    simp only [map_eq_pure_bind, run_bind, run_pure]
    generalize (next' value).read (r.input.drop middle) = read, next value middle = run at hrest ⊢
    cases hrest with
    | error failure => exact .malformed failure
    | ok hle' hend' => exact .matched (Nat.lt_of_lt_of_le hlt hle') (by omega)

theorem andThen {next : α → Walking β} {next' : α → Step Token β}
    (hrule : Matches r b program rule) (hnext : ∀ x, Follows r b (next x) (next' x)) :
    Matches r b (program.andThen next) (rule.andThen next') := by
  cases b with
  | zero => exact fun _ _ _ hb => absurd hb (Nat.not_lt_zero _)
  | succ b => exact hrule.andThen_further fun x => (hnext x).mono (Nat.le_succ b)

theorem requireOr {failure : Nat → SyntaxError} {failure' : Input Token → Failure Token}
    (hrule : Matches r b program rule)
    (hfailure : ∀ index, r.resolve (failure' (r.input.drop index)) = failure index) :
    Follows r b (program.requireOr failure) (rule.requireOr failure') := by
  intro hlength index hindex hb
  have hfinds := hrule hlength index hindex hb
  simp only [Walking.requireOr, run_bind, run_get, Rule.requireOr]
  generalize rule.read (r.input.drop index) = read, program index = run at hfinds ⊢
  cases hfinds with
  | absent =>
    rw [← hfailure]
    exact .error _
  | matched hlt hle => exact .ok (Nat.le_of_lt hlt) (Nat.le_trans hle (Nat.le_max_right _ _))
  | malformed failure => exact .error failure

theorem require {cause : Cause} (hrule : Matches r b program rule) :
    Follows r b (program.require r cause) (rule.require cause) :=
  hrule.requireOr (r.resolve_atFront cause)

theorem takes_links {separator : Walking (Option β)} {separator' : Rule Token β}
    {missing : β → Cause} (hrule : Matches r b program rule)
    (hseparator : Matches r b separator separator') (hlength : r.tokens.length < UInt64.size)
    {index : Nat} (hindex : index < UInt64.size) (hb : r.left index < b) :
    Takes r index (Rule.readLinks rule separator' missing (r.input.drop index))
      (program.links r separator missing index) := by
  have hfinds := hseparator hlength index hindex hb
  rw [Walking.links, Rule.readLinks_eq]
  generalize separator'.read (r.input.drop index) = read, separator index = run at hfinds ⊢
  cases hfinds with
  | absent => exact .ok (Nat.le_refl index) (Nat.le_max_left _ _)
  | malformed failure => exact .error failure
  | @matched link middle hlt hle =>
    have hrequire : Follows r b (program.require r (missing link))
        (rule.require (missing link)) := hrule.require
    have htakes := hrequire hlength middle (by omega) (Nat.lt_trans (Reader.left_lt hlt hle) hb)
    simp only
    generalize (rule.require (missing link)).read (r.input.drop middle) = read,
      program.require r (missing link) middle = run at htakes ⊢
    cases htakes with
    | error failure => exact .error failure
    | @ok value next hle' hend =>
      -- the separator alone makes the next round begin further on
      have hfurther : r.left next < r.left index :=
        Reader.left_lt (Nat.lt_of_lt_of_le hlt hle') (by omega)
      have hmore : Takes r next (Rule.readLinks rule separator' missing (r.input.drop next))
          (program.links r separator missing next) :=
        takes_links hrule hseparator hlength (by omega) (Nat.lt_trans hfurther hb)
      simp only [dif_pos hfurther]
      generalize Rule.readLinks rule separator' missing (r.input.drop next) = read,
        program.links r separator missing next = run at hmore ⊢
      cases hmore with
      | error failure => exact .error failure
      | ok hle'' hend' => exact .ok (by omega) (by omega)
termination_by r.left index

theorem links {separator : Walking (Option β)} {separator' : Rule Token β} {missing : β → Cause}
    (hrule : Matches r b program rule) (hseparator : Matches r b separator separator') :
    Follows r b (program.links r separator missing) (rule.links separator' missing) :=
  fun hlength _ hindex hb => hrule.takes_links hseparator hlength hindex hb

theorem chain {separator : Walking (Option β)} {separator' : Rule Token β} {missing : β → Cause}
    (hrule : Matches r b program rule) (hseparator : Matches r b separator separator') :
    Matches r b (program.chain r separator missing) (rule.chain separator' missing) :=
  hrule.andThen fun _ => (hrule.links hseparator).bind fun _ => .pure _

theorem commaList {kind : Listed} (hrule : Matches r b program rule) :
    Matches r b (program.commaList r kind) (rule.commaList kind) :=
  (hrule.chain (symbol ",")).map _

/-! ### The grammar -/

theorem qualified (missing : Cause) :
    Matches r b (qualified r missing) (Grammar.qualified missing) := by
  refine name.andThen fun first => (symbol ".").optional.bind fun dot => ?_
  cases dot with
  | none => exact .pure _
  | some _ => exact name.require.bind fun _ => .pure _

theorem tableRef : Matches r b (tableRef r) Grammar.tableRef := (qualified _).map _

theorem columnRef : Matches r b (columnRef r) Grammar.columnRef := (qualified _).map _

theorem literal : Matches r b (literal r) Grammar.literal := (token _).map _

theorem column : Matches r b (column r) Grammar.column := columnRef.map _

section Operand

variable {inner : Walking (Option (Operand (Span Token)))}
  {inner' : Rule Token (Operand (Span Token))} (h : Matches r b inner inner')
include h

theorem negation : Matches r (b + 1) (negation r inner) (Grammar.negation inner') :=
  (keyword "NOT").andThen_further fun _ => (h.requireOr fun _ => rfl).bind fun _ => .pure _

theorem expressionOf : Matches r b (expressionOf r inner) (Grammar.expressionOf inner') :=
  (h.chain operator).map _

theorem call : Matches r (b + 1) (call r inner) (Grammar.call (Grammar.expressionOf inner')) :=
  (name.both (symbol "(")).andThen_further fun _ => h.expressionOf.commaList.optional.bind
    fun _ => (symbol ")").require.bind fun _ => .pure _

end Operand

/-- The limit decides what is read, but not that reading ends. -/
theorem finds_operand (hlength : r.tokens.length < UInt64.size) (depth : Nat) {index : Nat}
    (hindex : index < UInt64.size) :
    Finds r index ((Grammar.operand (r.maxDepth - depth)).read (r.input.drop index))
      (operand r depth index) := by
  rw [Walking.operand]
  by_cases hdeep : r.maxDepth ≤ depth
  · rw [if_pos hdeep, Nat.sub_eq_zero_of_le hdeep, ← r.resolve_atFront]
    exact .malformed _
  · have hdepth : r.maxDepth - depth = r.maxDepth - (depth + 1) + 1 := by omega
    rw [if_neg hdeep, hdepth]
    have hinner : Matches r (r.left index)
        (fun next => if _further : r.left next < r.left index then operand r (depth + 1) next
          else .error (.slip .standstill))
        (Grammar.operand (r.maxDepth - (depth + 1))) := by
      -- by induction on the tokens that are left, whatever is left of the limit
      intro _ next hnext hfurther
      simp only [dif_pos hfurther]
      exact finds_operand hlength (depth + 1) hnext
    exact (hinner.negation.orElse (hinner.call.orElse (column.orElse literal))) hlength index hindex
      (Nat.lt_succ_self _)
termination_by r.left index

theorem operand {depth : Nat} :
    Matches r b (operand r depth) (Grammar.operand (r.maxDepth - depth)) :=
  fun hlength _ hindex _ => finds_operand hlength depth hindex

variable {depth : Nat}

theorem expression : Matches r b (expression r depth) (Grammar.expression (r.maxDepth - depth)) :=
  operand.expressionOf

theorem fromClause : Matches r b (fromClause r) Grammar.fromClause :=
  (keyword "FROM").andThen fun _ => tableRef.commaList.require.bind fun _ => .pure _

theorem whereClause :
    Matches r b (whereClause r depth) (Grammar.whereClause (r.maxDepth - depth)) :=
  (keyword "WHERE").andThen fun _ => expression.require.bind fun _ => .pure _

theorem orderClause : Matches r b (orderClause r) Grammar.orderClause :=
  ((keyword "ORDER").both (keyword "BY")).andThen fun _ => columnRef.commaList.require.bind
    fun _ => .pure _

end Matches

theorem Follows.clauses {depth : Nat} :
    Follows r b (clauses r depth) (Grammar.clauses (r.maxDepth - depth)) :=
  Matches.fromClause.optional.bind fun _ => Matches.whereClause.optional.bind fun _ =>
    Matches.orderClause.optional.bind fun _ => .pure _

namespace Matches

variable {depth : Nat}

theorem useStatement : Matches r b (useStatement r) Grammar.useStatement :=
  (keyword "USE").andThen fun _ => Follows.peek.bind fun _ => name.require.bind fun _ => .pure _

theorem selectStatement :
    Matches r b (selectStatement r depth) (Grammar.selectStatement (r.maxDepth - depth)) := by
  refine (keyword "SELECT").andThen fun key => expression.commaList.optional.bind fun list => ?_
  cases list with
  | none => exact .pure _
  | some list => exact Follows.clauses.bind fun _ => .pure _

theorem insertStatement :
    Matches r b (insertStatement r depth) (Grammar.insertStatement (r.maxDepth - depth)) := by
  refine (keyword "INSERT").andThen fun key => (keyword "INTO").require.bind fun _ => ?_
  refine tableRef.require.bind fun table => (symbol "(").require.bind fun _ => ?_
  refine columnRef.commaList.require.bind fun columns => (symbol ")").require.bind fun _ => ?_
  refine (keyword "VALUES").require.bind fun _ => (symbol "(").require.bind fun _ => ?_
  exact expression.commaList.require.bind fun values => (symbol ")").require.bind fun _ => .pure _

theorem deleteStatement :
    Matches r b (deleteStatement r depth) (Grammar.deleteStatement (r.maxDepth - depth)) := by
  refine (keyword "DELETE").andThen fun key => Follows.peek.bind fun found => ?_
  refine Follows.clauses.bind fun clauses => ?_
  cases clauses.kept? with
  | none => exact .pure _
  | some kept => exact .pure _

theorem statement :
    Matches r b (statement r depth) (Grammar.statement (r.maxDepth - depth)) :=
  useStatement.orElse (selectStatement.orElse (insertStatement.orElse deleteStatement))

end Matches

/-! ### Scripts -/

section Dispatch

variable {index : Nat} {t : Token} (ht : r.tokens[index]? = some t)
  (hnext : index + 1 < UInt64.size) (word : String)
  (body : Spanned (Span Token) Unit → Walking α) (failure : Nat → SyntaxError)
include ht hnext

theorem keyword_eq : keyword r word index =
    if t.kind = .keyword word then .ok (some ⟨.single t, ()⟩, index + 1)
    else .ok (none, index) := by
  by_cases hword : t.kind = .keyword word <;> simp [keyword, exactly, token, ht, hword, hnext]

theorem requireOr_keyword : ((keyword r word).andThen body).requireOr failure index =
    if t.kind = .keyword word then (skip >>= fun _ => body ⟨.single t, ()⟩) index
    else .error (.failed (failure index)) := by
  simp only [requireOr, andThen, run_bind, run_get, keyword_eq ht hnext, skip, if_pos hnext]
  by_cases hword : t.kind = .keyword word
  · simp only [if_pos hword, map_eq_pure_bind, run_bind, run_pure]
    cases body ⟨.single t, ()⟩ (index + 1) <;> rfl
  · simp only [if_neg hword]
    rfl

theorem requireOr_keyword_orElse (other : Walking (Option α)) :
    (((keyword r word).andThen body).orElse other).requireOr failure index =
      if t.kind = .keyword word then (skip >>= fun _ => body ⟨.single t, ()⟩) index
      else other.requireOr failure index := by
  simp only [requireOr, orElse, andThen, run_bind, run_get, keyword_eq ht hnext, skip,
    if_pos hnext]
  by_cases hword : t.kind = .keyword word
  · simp only [if_pos hword, map_eq_pure_bind, run_bind, run_pure]
    cases body ⟨.single t, ()⟩ (index + 1) <;> rfl
  · simp only [if_neg hword, run_pure]

end Dispatch

/-- Where there is a token, the statement that it begins is the one that is looked for. -/
theorem dispatch_eq (hlength : r.tokens.length < UInt64.size) (depth : Nat) {index : Nat}
    (hindex : index < r.tokens.length) :
    dispatch r depth index = (statement r depth).require r .statement index := by
  have hnext : index + 1 < UInt64.size := by omega
  have ht : r.tokens[index]? = some r.tokens[index] := List.getElem?_eq_getElem hindex
  have htoken : r.tokenAt index = r.tokens[index] := by
    rw [Reader.tokenAt, ht]
    rfl
  rw [dispatch, htoken, require, statement, useStatement, requireOr_keyword_orElse ht hnext,
    selectStatement, requireOr_keyword_orElse ht hnext, insertStatement,
    requireOr_keyword_orElse ht hnext, deleteStatement, requireOr_keyword ht hnext, htoken]

/-- Semicolons are nothing to a script, and behind them there are none. -/
theorem semicolons_eq (hlength : r.tokens.length < UInt64.size) (depth : Nat) {index : Nat}
    (hindex : index < UInt64.size) :
    ∃ start, semicolons r index = .ok start ∧ index ≤ start ∧ start ≤ max index r.tokens.length ∧
      Grammar.script depth (r.input.drop index) = Grammar.script depth (r.input.drop start) ∧
      ∀ t, r.tokens[start]? = some t → t.kind ≠ .symbol ";" := by
  have hfinds : Finds r index ((Rule.symbol ";").read (r.input.drop index)) (symbol r ";" index) :=
    Matches.symbol ";" hlength index hindex (Nat.lt_succ_self _)
  rw [semicolons]
  generalize hread : (Rule.symbol ";").read (r.input.drop index) = read,
    symbol r ";" index = run at hfinds ⊢
  cases hfinds with
  | absent =>
    refine ⟨index, rfl, Nat.le_refl index, Nat.le_max_left _ _, rfl, fun t ht => ?_⟩
    exact Rule.symbol_absent.mp hread (t.kind, t) (by rw [Reader.drop_input_of_some ht]; rfl)
  | malformed failure => exact (Rule.token_ne_malformed hread).elim
  | @matched value next hlt hle =>
    obtain ⟨mark, hfront, -⟩ := Rule.symbol_matched.mp hread
    have hfurther : r.left next < r.left index := Reader.left_lt hlt hle
    have hnext : next < UInt64.size := by omega
    obtain ⟨start, hstart, hle', hend, hsame, hother⟩ := semicolons_eq hlength depth hnext
    refine ⟨start, ?_, by omega, by omega, ?_, hother⟩
    · simp only [dif_pos hfurther, hstart]
    · rw [hfront, Grammar.script_cons, if_pos rfl, hsame]
termination_by r.left index

theorem script_eq (hlength : r.tokens.length < UInt64.size) {index : Nat}
    (hindex : index < UInt64.size) :
    script r index =
      ((Grammar.script r.maxDepth (r.input.drop index)).result.mapError r.resolve).mapError
        .failed := by
  obtain ⟨start, hstart, hle, hend, hsame, hother⟩ := semicolons_eq hlength r.maxDepth hindex
  rw [script, hstart, hsame]
  cases ht : r.tokens[start]? with
  | none =>
    simp only [if_pos (List.getElem?_eq_none_iff.mp ht), Reader.drop_input_of_none ht,
      Grammar.script]
    rfl
  | some t =>
    have hlt : start < r.tokens.length := (List.getElem?_eq_some_iff.mp ht).1
    have hstatement : Matches r (r.left start + 1) (statement r 0)
        (Grammar.statement (r.maxDepth - 0)) := Matches.statement
    have hfinds := hstatement hlength start (by omega) (Nat.lt_succ_self _)
    rw [Nat.sub_zero] at hfinds
    simp only [if_neg (Nat.not_le.mpr hlt), dispatch_eq hlength 0 hlt, require, requireOr, run_bind,
      run_get]
    rw [Reader.drop_input_of_some ht, Grammar.script_cons, if_neg (hother t ht),
      ← Reader.drop_input_of_some ht]
    generalize (Grammar.statement r.maxDepth).read (r.input.drop start) = read,
      statement r 0 start = run at hfinds ⊢
    cases hfinds with
    | absent =>
      have htoken : r.tokenAt start = t := by
        rw [Reader.tokenAt, ht]
        rfl
      rw [htoken]
      rfl
    | malformed failure => rfl
    | @matched draft next hlt' hle' =>
      simp only [run_pure]
      cases draft.statement with
      | error failure => rfl
      | ok s =>
        have hfurther : r.left next < r.left index :=
          Reader.left_lt (Nat.lt_of_le_of_lt hle hlt') hle'
        have hnext : next < UInt64.size := by omega
        have hmore := script_eq hlength hnext
        simp only [dif_pos hfurther, hmore, Grammar.Reading.prepend]
        cases (Grammar.script r.maxDepth (r.input.drop next)).result <;> rfl
termination_by r.left index

end Walking

end SqlScript

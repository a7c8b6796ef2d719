import SqlScript.Proofs.Grammar.Marks

/-!
# Reading with a counter

The grammar is told how much deeper operands may lie. Here it counts instead: a gauge goes up before
an operand is looked for and down again behind it, and a failure leaves everything at once, whatever
the gauge says there. All the same every routine leaves the gauge where it was and reads what the
grammar reads (`Routine.keeps`).
-/

namespace SqlScript

/-- How many operands reading is inside of, and the most there have been. -/
structure Gauge where
  depth : Nat
  peak : Nat

namespace Gauge

/-- Nothing has been read yet. -/
def unused : Gauge := ⟨0, 0⟩

/-- One level deeper. The peak goes up with the depth where it has to. -/
def enter (g : Gauge) : Gauge := ⟨g.depth + 1, max g.peak (g.depth + 1)⟩

/-- One level up again. The peak stays. -/
def leave (g : Gauge) : Gauge := { g with depth := g.depth - 1 }

/-- Two calls in a row are as deep as the deeper one. -/
theorem le_trans {peak peak' limit : Nat} {g : Gauge} (h : peak ≤ max g.peak limit)
    (h' : peak' ≤ max peak limit) : peak' ≤ max g.peak limit := by
  omega

end Gauge

/-- Reading off the front of the tokens, with a gauge that outlasts failures. -/
abbrev Counting (σ : Type) := StateT (Input σ) (ExceptT (Failure σ) (StateM Gauge))

namespace Counting

variable {σ α β : Type}

/-- A step that does not look at the gauge. -/
def uncounted (step : Step σ α) : Counting σ α := fun input gauge => (step.read input, gauge)

/-- What has to be there; its absence is a failure. -/
def requireOr (rule : Counting σ (Option α)) (failure : Input σ → Failure σ) : Counting σ α := do
  let input ← get
  match ← rule with
  | some value => return value
  | none => throw (failure input)

def require (rule : Counting σ (Option α)) (cause : Cause) : Counting σ α :=
  rule.requireOr (.atFront cause)

/-- The second rule is tried where the first finds nothing. -/
def orElse (rule other : Counting σ (Option α)) : Counting σ (Option α) := do
  match ← rule with
  | some value => return some value
  | none => other

/-- What follows is looked for only behind what was found. -/
def andThen (rule : Counting σ (Option α)) (next : α → Counting σ β) : Counting σ (Option β) := do
  match ← rule with
  | some value => some <$> next value
  | none => return none

/-- Separators and items, as many as there are, but no more than the room allows. -/
def readLinks (item : Counting σ (Option α)) (separator : Rule σ β) (missing : β → Cause) :
    Nat → Counting σ (List (β × α))
  | 0 => return []
  | room + 1 => do
    match ← uncounted separator.optional with
    | none => return []
    | some link =>
      let value ← item.require (missing link)
      let more ← readLinks item separator missing room
      return (link, value) :: more

/-- There are no more links than tokens. -/
def links (item : Counting σ (Option α)) (separator : Rule σ β) (missing : β → Cause) :
    Counting σ (List (β × α)) := do
  readLinks item separator missing ((← get).length + 1)

def chain (item : Counting σ (Option α)) (separator : Rule σ β) (missing : β → Cause) :
    Counting σ (Option (α × List (β × α))) :=
  item.andThen fun first => do
    let more ← item.links separator missing
    return (first, more)

def commaList (item : Counting σ (Option α)) (kind : Listed) :
    Counting σ (Option (α × List α)) := do
  let found ← item.chain (Rule.symbol ",") fun _ => .listed kind
  return found.map fun (first, more) => (first, more.map Prod.snd)

/-- Goes one deeper unless that is too deep. The gauge goes down again however reading ends. -/
def guarded (limit : Nat) (inside : Counting σ (Option α)) : Counting σ (Option α) :=
  fun input gauge =>
    if gauge.depth < limit then
      let (result, gauge) := inside input gauge.enter
      (result, gauge.leave)
    else (.error (.atFront .tooDeep input), gauge)

/-! ## The grammar -/

section Expression

variable (inner : Counting σ (Option (Operand (Span σ))))

/-- NOT and the operand inside it, by the rule that is given for operands. -/
def negation : Counting σ (Option (Operand (Span σ))) :=
  (uncounted (Rule.keyword "NOT").optional).andThen fun key => do
    let value ← inner.requireOr fun _ => ⟨.valueAfterNot, some key.span.first⟩
    return .not (key.span.through value.span) value

/-- A chain, put in postfix order. -/
def expressionOf : Counting σ (Option (Expr (Span σ))) := do
  let found ← inner.chain Grammar.operator fun op => .operandAfter op.node
  return found.map fun (first, links) =>
    .postfixed (Grammar.chainSpan first links) (Yard.postfixed first links)

/-- A call and the expressions inside it. -/
def call : Counting σ (Option (Operand (Span σ))) :=
  (uncounted (Rule.name.both (Rule.symbol "(")).optional).andThen fun (function, _) => do
    let args ← (expressionOf inner).commaList .expression
    let close ← uncounted ((Rule.symbol ")").require .closing)
    let span := function.span.through close.span
    return .call span function.node (args.elim [] fun (first, more) => first :: more)

end Expression

/-- The limit ends the recursion: there is room for more operands than it allows. -/
def operandWithin (limit : Nat) : Nat → Counting σ (Option (Operand (Span σ)))
  | 0 => return none
  | room + 1 => guarded limit <|
    (negation (operandWithin limit room)).orElse <| (call (operandWithin limit room)).orElse <|
      (uncounted Grammar.column.optional).orElse (uncounted Grammar.literal.optional)

/-- An operand, with more room than the limit allows levels. -/
def operand (limit : Nat) : Counting σ (Option (Operand (Span σ))) :=
  operandWithin limit (limit + 1)

def expression (limit : Nat) : Counting σ (Option (Expr (Span σ))) := expressionOf (operand limit)

def whereClause (limit : Nat) : Counting σ (Option (Spanned (Span σ) (Expr (Span σ)))) :=
  (uncounted (Rule.keyword "WHERE").optional).andThen fun key => do
    let condition ← (expression limit).require .whereExpression
    return ⟨key.span.through condition.span, condition⟩

def clauses (limit : Nat) : Counting σ (Clauses (Span σ)) := do
  let tables ← uncounted Grammar.fromClause.optional
  let filter ← whereClause limit
  let order ← uncounted Grammar.orderClause.optional
  return ⟨tables, filter, order⟩

def selectStatement (limit : Nat) : Counting σ (Option (Grammar.Draft σ)) :=
  (uncounted (Rule.keyword "SELECT").optional).andThen fun key => do
    match ← (expression limit).commaList .expression with
    | none => return .plain (.select key.span [] none)
    | some (first, more) =>
      let clauses ← clauses limit
      let listed := key.span.through (Grammar.listSpan Expr.span first more)
      let span := (clauses.span?.map listed.through).getD listed
      return ⟨clauses.dropped?.map Span.first, .ok (.select span (first :: more) clauses.kept?)⟩

def insertStatement (limit : Nat) : Counting σ (Option (Grammar.Draft σ)) :=
  (uncounted (Rule.keyword "INSERT").optional).andThen fun key => do
    let _ ← uncounted ((Rule.keyword "INTO").require .into)
    let table ← uncounted (Grammar.tableRef.require .insertTable)
    let _ ← uncounted ((Rule.symbol "(").require .opening)
    let (column, columns) ← uncounted ((Grammar.columnRef.commaList .column).require .insertColumn)
    let _ ← uncounted ((Rule.symbol ")").require .closing)
    let _ ← uncounted ((Rule.keyword "VALUES").require .values)
    let _ ← uncounted ((Rule.symbol "(").require .opening)
    let (value, values) ← ((expression limit).commaList .expression).require .insertValue
    let close ← uncounted ((Rule.symbol ")").require .closing)
    let span := key.span.through close.span
    return .plain (.insert span table (column :: columns) (value :: values))

def deleteStatement (limit : Nat) : Counting σ (Option (Grammar.Draft σ)) :=
  (uncounted (Rule.keyword "DELETE").optional).andThen fun key => do
    let found ← uncounted Step.peek
    let clauses ← clauses limit
    return ⟨clauses.dropped?.map Span.first,
      match clauses.kept? with
      | some kept => .ok (.delete (key.span.through kept.span) kept)
      | none => .error ⟨.deleteTable, found.map Prod.snd⟩⟩

def statement (limit : Nat) : Counting σ (Option (Grammar.Draft σ)) :=
  (uncounted Grammar.useStatement.optional).orElse <| (selectStatement limit).orElse <|
    (insertStatement limit).orElse (deleteStatement limit)

def scriptWithin (limit : Nat) : Nat → Counting σ (List (Statement (Span σ)))
  | 0 => return []
  | room + 1 => do
    match ← get with
    | [] => return []
    | (kind, mark) :: rest =>
      if kind = .symbol ";" then
        set rest
        scriptWithin limit room
      else
        match ← statement limit with
        | none => throw ⟨.statement, some mark⟩
        | some draft =>
          match draft.statement with
          | .error failure => throw failure
          | .ok statement =>
            let more ← scriptWithin limit room
            return statement :: more

/-- Every round takes a token. -/
def script (limit : Nat) : Counting σ (List (Statement (Span σ))) := do
  scriptWithin limit ((← get).length + 1)

/-! ## What programs do -/

section Run

variable (input : Input σ) (gauge : Gauge)

@[simp] theorem run_get : (get : Counting σ (Input σ)) input gauge = (.ok (input, input), gauge) :=
  rfl

@[simp] theorem run_set (rest : Input σ) :
    (set rest : Counting σ PUnit) input gauge = (.ok ((), rest), gauge) := rfl

@[simp] theorem run_uncounted (step : Step σ α) :
    uncounted step input gauge = (step.read input, gauge) := rfl

/-- A failure leaves the gauge where it was then. -/
@[simp] theorem run_bind (program : Counting σ α) (next : α → Counting σ β) :
    (program >>= next) input gauge =
      match program input gauge with
      | (.ok (value, rest), gauge) => next value rest gauge
      | (.error failure, gauge) => (.error failure, gauge) := by
  simp only [bind, StateT.bind, ExceptT.bind, ExceptT.mk]
  rcases program input gauge with ⟨_ | _, _⟩ <;> rfl

end Run

/-- With the gauge at `d` a program reads what `read` does, and leaves the gauge there. On the way
it does not go beyond the limit. -/
def Keeps (limit d : Nat) (program : Counting σ α)
    (read : Input σ → Except (Failure σ) (α × Input σ)) : Prop :=
  ∀ input gauge, gauge.depth = d →
    ∃ peak ≤ max gauge.peak limit, program input gauge = (read input, ⟨d, peak⟩)

namespace Keeps

variable {limit d : Nat}

theorem pure (value : α) : (Pure.pure value : Counting σ α).Keeps limit d
    (Pure.pure value : Step σ α).read := by
  rintro input gauge rfl
  exact ⟨gauge.peak, Nat.le_max_left _ _, rfl⟩

theorem uncounted (step : Step σ α) : (uncounted step).Keeps limit d step.read := by
  rintro input gauge rfl
  exact ⟨gauge.peak, Nat.le_max_left _ _, rfl⟩

theorem bind {program : Counting σ α} {step : Step σ α} {next : α → Counting σ β}
    {next' : α → Step σ β} (hprogram : program.Keeps limit d step.read)
    (hnext : ∀ x, (next x).Keeps limit d (next' x).read) :
    (program >>= next).Keeps limit d (step >>= next').read := by
  intro input gauge hgauge
  obtain ⟨peak, hpeak, hrun⟩ := hprogram input gauge hgauge
  rw [run_bind, hrun, Step.read_bind]
  cases step.read input with
  | error failure => exact ⟨peak, hpeak, rfl⟩
  | ok found =>
    obtain ⟨peak', hpeak', hrun'⟩ := hnext found.1 found.2 ⟨d, peak⟩ rfl
    exact ⟨peak', Gauge.le_trans hpeak hpeak', hrun'⟩

/-! ### Rules, which may find nothing -/

variable {program : Counting σ (Option α)} {rule : Rule σ α}

theorem map (hrule : program.Keeps limit d rule.optional.read) (f : α → β) :
    (do return (← program).map f : Counting σ (Option β)).Keeps limit d
      (rule.map f).optional.read := by
  intro input gauge hgauge
  obtain ⟨peak, hpeak, hrun⟩ := hrule input gauge hgauge
  refine ⟨peak, hpeak, ?_⟩
  simp only [run_bind, hrun, Rule.optional, Rule.map]
  cases rule.read input <;> rfl

theorem orElse {program' : Counting σ (Option α)} {other : Rule σ α}
    (hrule : program.Keeps limit d rule.optional.read)
    (hother : program'.Keeps limit d other.optional.read) :
    (program.orElse program').Keeps limit d (rule <|> other).optional.read := by
  intro input gauge hgauge
  obtain ⟨peak, hpeak, hrun⟩ := hrule input gauge hgauge
  obtain ⟨peak', hpeak', hrun'⟩ := hother input ⟨d, peak⟩ rfl
  simp only [Counting.orElse, run_bind, hrun, Rule.optional, HOrElse.hOrElse, OrElse.orElse,
    Rule.orElse] at hrun' ⊢
  cases rule.read input with
  | absent => exact ⟨peak', Gauge.le_trans hpeak hpeak', hrun'⟩
  | matched value rest => exact ⟨peak, hpeak, rfl⟩
  | malformed failure => exact ⟨peak, hpeak, rfl⟩

theorem andThen {next : α → Counting σ β} {next' : α → Step σ β}
    (hrule : program.Keeps limit d rule.optional.read)
    (hnext : ∀ x, (next x).Keeps limit d (next' x).read) :
    (program.andThen next).Keeps limit d (rule.andThen next').optional.read := by
  intro input gauge hgauge
  obtain ⟨peak, hpeak, hrun⟩ := hrule input gauge hgauge
  simp only [Counting.andThen, run_bind, hrun, Rule.optional, Rule.andThen]
  cases rule.read input with
  | absent => exact ⟨peak, hpeak, rfl⟩
  | malformed failure => exact ⟨peak, hpeak, rfl⟩
  | matched value middle =>
    obtain ⟨peak', hpeak', hrun'⟩ := hnext value middle ⟨d, peak⟩ rfl
    refine ⟨peak', Gauge.le_trans hpeak hpeak', ?_⟩
    simp only [map_eq_pure_bind, run_bind, hrun']
    cases (next' value).read middle <;> rfl

theorem requireOr {failure : Input σ → Failure σ}
    (hrule : program.Keeps limit d rule.optional.read) :
    (program.requireOr failure).Keeps limit d (rule.requireOr failure).read := by
  intro input gauge hgauge
  obtain ⟨peak, hpeak, hrun⟩ := hrule input gauge hgauge
  refine ⟨peak, hpeak, ?_⟩
  simp only [Counting.requireOr, run_bind, run_get, hrun, Rule.optional, Rule.requireOr]
  cases rule.read input <;> rfl

theorem require {cause : Cause} (hrule : program.Keeps limit d rule.optional.read) :
    (program.require cause).Keeps limit d (rule.require cause).read :=
  hrule.requireOr

theorem readLinks {separator : Rule σ β} {missing : β → Cause}
    (hrule : program.Keeps limit d rule.optional.read) {room : Nat} {input : Input σ}
    {gauge : Gauge} (hroom : input.length < room) (hgauge : gauge.depth = d) :
    ∃ peak ≤ max gauge.peak limit, program.readLinks separator missing room input gauge =
      (Rule.readLinks rule separator missing input, ⟨d, peak⟩) := by
  induction room generalizing input gauge with
  | zero => exact absurd hroom (Nat.not_lt_zero _)
  | succ room ih =>
    subst hgauge
    rw [Counting.readLinks, Rule.readLinks_eq]
    simp only [run_bind, run_uncounted, Rule.optional]
    cases hlink : separator.read input with
    | absent => exact ⟨gauge.peak, Nat.le_max_left _ _, rfl⟩
    | malformed failure => exact ⟨gauge.peak, Nat.le_max_left _ _, rfl⟩
    | matched link middle =>
      have hrequire : (program.require (missing link)).Keeps limit gauge.depth
          (rule.require (missing link)).read := hrule.require
      obtain ⟨peak, hpeak, hrun⟩ := hrequire middle gauge rfl
      simp only [run_bind, hrun]
      cases hvalue : (rule.require (missing link)).read middle with
      | error failure => exact ⟨peak, hpeak, rfl⟩
      | ok found =>
        obtain ⟨value, rest⟩ := found
        have hshorter : rest.length < room := by
          have := separator.shrinks hlink
          have := (rule.require (missing link)).shrinks hvalue
          omega
        obtain ⟨peak', hpeak', hmore⟩ := @ih rest ⟨gauge.depth, peak⟩ hshorter rfl
        refine ⟨peak', Gauge.le_trans hpeak hpeak', ?_⟩
        simp only [hmore]
        cases Rule.readLinks rule separator missing rest <;> rfl

theorem links {separator : Rule σ β} {missing : β → Cause}
    (hrule : program.Keeps limit d rule.optional.read) :
    (program.links separator missing).Keeps limit d (rule.links separator missing).read :=
  fun _ _ hgauge => hrule.readLinks (Nat.lt_succ_self _) hgauge

theorem chain {separator : Rule σ β} {missing : β → Cause}
    (hrule : program.Keeps limit d rule.optional.read) :
    (program.chain separator missing).Keeps limit d (rule.chain separator missing).optional.read :=
  hrule.andThen fun _ => hrule.links.bind fun _ => .pure _

theorem commaList {kind : Listed} (hrule : program.Keeps limit d rule.optional.read) :
    (program.commaList kind).Keeps limit d (rule.commaList kind).optional.read :=
  hrule.chain.map _

/-! ### The grammar -/

section Expression

variable {inner : Counting σ (Option (Operand (Span σ)))} {inner' : Rule σ (Operand (Span σ))}
  (h : inner.Keeps limit d inner'.optional.read)
include h

theorem negation : (negation inner).Keeps limit d (Grammar.negation inner').optional.read :=
  (uncounted _).andThen fun _ => h.requireOr.bind fun _ => .pure _

theorem expressionOf :
    (expressionOf inner).Keeps limit d (Grammar.expressionOf inner').optional.read :=
  h.chain.map _

theorem call :
    (call inner).Keeps limit d (Grammar.call (Grammar.expressionOf inner')).optional.read :=
  (uncounted _).andThen fun _ => h.expressionOf.commaList.bind fun _ =>
    (uncounted _).bind fun _ => .pure _

end Expression

/-- What is read one deeper below the limit. -/
theorem guarded {inside : Counting σ (Option α)} {rule : Nat → Rule σ α}
    (hdeep : ∀ I, (rule 0).read I = .malformed (.atFront .tooDeep I))
    (hinside : d < limit → inside.Keeps limit (d + 1) (rule (limit - d)).optional.read) :
    (guarded limit inside).Keeps limit d (rule (limit - d)).optional.read := by
  rintro input gauge rfl
  rw [Counting.guarded]
  by_cases hlt : gauge.depth < limit
  · obtain ⟨peak, hpeak, hrun⟩ := hinside hlt input gauge.enter rfl
    simp only [if_pos hlt, hrun]
    refine ⟨peak, ?_, rfl⟩
    simp only [Gauge.enter] at hpeak
    omega
  · have hzero : limit - gauge.depth = 0 := by omega
    refine ⟨gauge.peak, Nat.le_max_left _ _, ?_⟩
    simp only [if_neg hlt, hzero, Rule.optional, hdeep]

theorem operandWithin {room : Nat} (hroom : limit < room + d) (hpos : 0 < room) :
    (operandWithin limit room : Counting σ _).Keeps limit d
      (Grammar.operand (limit - d)).optional.read := by
  induction room generalizing d with
  | zero => omega
  | succ room ih =>
    refine guarded (fun _ => rfl) fun hlt => ?_
    have hinner := ih (d := d + 1) (by omega) (by omega)
    have hdepth : limit - d = limit - (d + 1) + 1 := by omega
    rw [hdepth]
    exact hinner.negation.orElse (hinner.call.orElse ((uncounted _).orElse (uncounted _)))

theorem operand : (operand limit : Counting σ _).Keeps limit d
    (Grammar.operand (limit - d)).optional.read :=
  operandWithin (by omega) (Nat.succ_pos _)

theorem expression : (expression limit : Counting σ _).Keeps limit d
    (Grammar.expression (limit - d)).optional.read :=
  operand.expressionOf

theorem whereClause : (whereClause limit : Counting σ _).Keeps limit d
    (Grammar.whereClause (limit - d)).optional.read :=
  (uncounted _).andThen fun _ => expression.require.bind fun _ => .pure _

theorem clauses : (clauses limit : Counting σ _).Keeps limit d (Grammar.clauses (limit - d)).read :=
  (uncounted _).bind fun _ => whereClause.bind fun _ => (uncounted _).bind fun _ => .pure _

theorem selectStatement : (selectStatement limit : Counting σ _).Keeps limit d
    (Grammar.selectStatement (limit - d)).optional.read := by
  refine (uncounted _).andThen fun key => expression.commaList.bind fun list => ?_
  cases list with
  | none => exact .pure _
  | some list => exact clauses.bind fun _ => .pure _

theorem insertStatement : (insertStatement limit : Counting σ _).Keeps limit d
    (Grammar.insertStatement (limit - d)).optional.read := by
  refine (uncounted _).andThen fun key => ?_
  refine (uncounted _).bind fun _ => (uncounted _).bind fun table => ?_
  refine (uncounted _).bind fun _ => (uncounted _).bind fun columns => ?_
  refine (uncounted _).bind fun _ => (uncounted _).bind fun _ => (uncounted _).bind fun _ => ?_
  exact expression.commaList.require.bind fun values => (uncounted _).bind fun _ => .pure _

theorem deleteStatement : (deleteStatement limit : Counting σ _).Keeps limit d
    (Grammar.deleteStatement (limit - d)).optional.read :=
  (uncounted _).andThen fun _ => (uncounted _).bind fun _ => clauses.bind fun _ => .pure _

theorem statement : (statement limit : Counting σ _).Keeps limit d
    (Grammar.statement (limit - d)).optional.read :=
  (uncounted _).orElse (selectStatement.orElse (insertStatement.orElse deleteStatement))

end Keeps

/-- By induction on the room; each statement takes a token of it. -/
theorem keeps_scriptWithin {limit d room : Nat} {input : Input σ} {gauge : Gauge}
    (hroom : input.length < room) (hgauge : gauge.depth = d) :
    ∃ peak ≤ max gauge.peak limit, scriptWithin limit room input gauge =
      ((Grammar.script (limit - d) input).result.map (·, []), ⟨d, peak⟩) := by
  induction room generalizing input gauge with
  | zero => exact absurd hroom (Nat.not_lt_zero _)
  | succ room ih =>
    subst hgauge
    rw [scriptWithin]
    simp only [run_bind, run_get]
    cases input with
    | nil =>
      rw [Grammar.script]
      exact ⟨gauge.peak, Nat.le_max_left _ _, rfl⟩
    | cons first input =>
      obtain ⟨kind, mark⟩ := first
      rw [Grammar.script_cons]
      by_cases hkind : kind = .symbol ";"
      · simp only [if_pos hkind, run_bind, run_set]
        exact ih (Nat.lt_of_succ_lt_succ hroom) rfl
      · simp only [if_neg hkind, run_bind]
        have hstatement : (statement limit).Keeps limit gauge.depth
            (Grammar.statement (limit - gauge.depth) : Rule σ _).optional.read := .statement
        obtain ⟨peak, hpeak, hrun⟩ := hstatement ((kind, mark) :: input) gauge rfl
        simp only [hrun, Rule.optional]
        cases hread : (Grammar.statement (limit - gauge.depth)).read ((kind, mark) :: input) with
        | absent => exact ⟨peak, hpeak, rfl⟩
        | malformed failure => exact ⟨peak, hpeak, rfl⟩
        | matched draft rest =>
          simp only
          cases hdraft : draft.statement with
          | error failure => exact ⟨peak, hpeak, rfl⟩
          | ok s =>
            have hshorter : rest.length < room := by
              have := (Grammar.statement _).shrinks hread
              omega
            obtain ⟨peak', hpeak', hmore⟩ := @ih rest ⟨gauge.depth, peak⟩ hshorter rfl
            refine ⟨peak', Gauge.le_trans hpeak hpeak', ?_⟩
            simp only [run_bind, hmore, Grammar.Reading.prepend]
            cases (Grammar.script (limit - gauge.depth) rest).result <;> rfl

/-- A whole script leaves the depth as it was. -/
theorem Keeps.script {limit d : Nat} : (script limit : Counting σ _).Keeps limit d
    fun input => (Grammar.script (limit - d) input).result.map (·, []) :=
  fun _ _ hgauge => keeps_scriptWithin (Nat.lt_succ_self _) hgauge

end Counting

end SqlScript

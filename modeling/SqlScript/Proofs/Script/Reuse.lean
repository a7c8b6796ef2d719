import SqlScript.Proofs.Grammar.Counting
import SqlScript.Reader

/-!
# A reader can be used again

A reader may be asked for one thing after another, at any indices, and whatever the answers are: it
answers as if it had not been asked before, and its gauge is down again (`Reader.askAll_anew`).
-/

namespace SqlScript

variable {σ α : Type}

/-! ## Every routine -/

/-- What the grammar reads, with the type of what comes out. -/
inductive Routine (σ : Type) : Type → Type 1
  | operator : Routine σ (Spanned (Span σ) Operator)
  | literal : Routine σ (Operand (Span σ))
  | column : Routine σ (Spanned (Span σ) ColumnRef)
  | call : Routine σ (Operand (Span σ))
  | negation : Routine σ (Operand (Span σ))
  | operand : Routine σ (Operand (Span σ))
  | expression : Routine σ (Expr (Span σ))
  | table : Routine σ (Spanned (Span σ) TableRef)
  | list {α : Type} (kind : Listed) (item : Routine σ α) : Routine σ (α × List α)
  | fromClause : Routine σ (Spanned (Span σ) (List (Spanned (Span σ) TableRef)))
  | whereClause : Routine σ (Spanned (Span σ) (Expr (Span σ)))
  | orderClause : Routine σ (Spanned (Span σ) (List (Spanned (Span σ) ColumnRef)))
  | useStatement : Routine σ (Grammar.Draft σ)
  | selectStatement : Routine σ (Grammar.Draft σ)
  | insertStatement : Routine σ (Grammar.Draft σ)
  | deleteStatement : Routine σ (Grammar.Draft σ)
  | statement : Routine σ (Grammar.Draft σ)

namespace Routine

/-- The rule of the grammar, with room for so many operands inside one another. -/
def rule (depth : Nat) : {α : Type} → Routine σ α → Rule σ α
  | _, operator => Grammar.operator
  | _, literal => Grammar.literal
  | _, column => Grammar.columnRef
  | _, call => Grammar.call (Grammar.expression depth)
  | _, negation => Grammar.negation (Grammar.operand depth)
  | _, operand => Grammar.operand depth
  | _, expression => Grammar.expression depth
  | _, table => Grammar.tableRef
  | _, list kind item => (item.rule depth).commaList kind
  | _, fromClause => Grammar.fromClause
  | _, whereClause => Grammar.whereClause depth
  | _, orderClause => Grammar.orderClause
  | _, useStatement => Grammar.useStatement
  | _, selectStatement => Grammar.selectStatement depth
  | _, insertStatement => Grammar.insertStatement depth
  | _, deleteStatement => Grammar.deleteStatement depth
  | _, statement => Grammar.statement depth

/-- The same with a gauge. Only what can contain operands looks at it. -/
def program (limit : Nat) : {α : Type} → Routine σ α → Counting σ (Option α)
  | _, call => Counting.call (Counting.operand limit)
  | _, negation => Counting.negation (Counting.operand limit)
  | _, operand => Counting.operand limit
  | _, expression => Counting.expression limit
  | _, list kind item => (item.program limit).commaList kind
  | _, whereClause => Counting.whereClause limit
  | _, selectStatement => Counting.selectStatement limit
  | _, insertStatement => Counting.insertStatement limit
  | _, deleteStatement => Counting.deleteStatement limit
  | _, statement => Counting.statement limit
  | _, routine => Counting.uncounted (routine.rule 0).optional

theorem keeps (routine : Routine σ α) {limit d : Nat} :
    (routine.program limit).Keeps limit d (routine.rule (limit - d)).optional.read := by
  induction routine with
  | call => exact Counting.Keeps.operand.call
  | negation => exact Counting.Keeps.operand.negation
  | operand => exact .operand
  | expression => exact .expression
  | list kind item ih => exact ih.commaList
  | whereClause => exact .whereClause
  | selectStatement => exact .selectStatement
  | insertStatement => exact .insertStatement
  | deleteStatement => exact .deleteStatement
  | statement => exact .statement
  | _ => exact .uncounted _

end Routine

/-! ## One request after another -/

/-- What a reader can be asked to read at the token with a given index. -/
inductive Request
  | expression (index : Nat)
  | operand (index : Nat)
  | column (index : Nat)

/-- What a reader says to a request. -/
inductive Answer
  | expression (result : Except SyntaxError (Option (Nat × Expr (Span Token))))
  | operand (result : Except SyntaxError (Option (Nat × Operand (Span Token))))
  | column (result : Except SyntaxError (Option (Nat × Spanned (Span Token) ColumnRef)))

namespace Reader

/-- The answer of a reader that is not in use. -/
def answer (r : Reader) : Request → Answer
  | .expression index => .expression (r.expression index)
  | .operand index => .operand (r.operand index)
  | .column index => .column (r.column index)

/-- Tries a routine at an index, with the gauge as it is. -/
def tryAt (r : Reader) (routine : Routine Token α) (index : Nat) (gauge : Gauge) :
    Except SyntaxError (Option (Nat × α)) × Gauge :=
  match routine.program r.maxDepth (r.input.drop index) gauge with
  | (.ok (none, _), gauge) => (.ok none, gauge)
  | (.ok (some value, rest), gauge) => (.ok (some (r.tokens.length - rest.length, value)), gauge)
  | (.error failure, gauge) => (.error (r.resolve failure), gauge)

/-- Asks a reader that may have been asked before. -/
def ask (r : Reader) (request : Request) (gauge : Gauge) : Answer × Gauge :=
  match request with
  | .expression index => (r.tryAt .expression index gauge).map .expression id
  | .operand index => (r.tryAt .operand index gauge).map .operand id
  | .column index => (r.tryAt .column index gauge).map .column id

/-- All answers in their order, each with the gauge behind it. -/
def askAll (r : Reader) : List Request → Gauge → List (Answer × Gauge)
  | [], _ => []
  | request :: requests, gauge =>
    let step := r.ask request gauge
    step :: r.askAll requests step.2

variable (r : Reader)

theorem tryAt_keeps (routine : Routine Token α) (index : Nat) (gauge : Gauge) :
    ∃ peak ≤ max gauge.peak r.maxDepth, r.tryAt routine index gauge =
      (r.readAt (routine.rule (r.maxDepth - gauge.depth)) index, ⟨gauge.depth, peak⟩) := by
  obtain ⟨peak, hpeak, hrun⟩ := routine.keeps (r.input.drop index) gauge rfl
  refine ⟨peak, hpeak, ?_⟩
  simp only [tryAt, hrun, readAt, Rule.optional]
  cases (routine.rule (r.maxDepth - gauge.depth)).read (r.input.drop index) <;> rfl

/-- Whatever the answer is, the gauge is down again, and the answer is that of an unused reader. -/
theorem ask_keeps (request : Request) {gauge : Gauge} (hgauge : gauge.depth = 0) :
    ∃ peak ≤ max gauge.peak r.maxDepth, r.ask request gauge = (r.answer request, ⟨0, peak⟩) := by
  have htry : ∀ {α : Type} (routine : Routine Token α) (index : Nat),
      ∃ peak ≤ max gauge.peak r.maxDepth, r.tryAt routine index gauge =
        (r.readAt (routine.rule r.maxDepth) index, ⟨0, peak⟩) := fun routine index => by
    have hkeeps := r.tryAt_keeps routine index gauge
    rwa [hgauge, Nat.sub_zero] at hkeeps
  cases request with
  | expression index =>
    obtain ⟨peak, hpeak, hrun⟩ := htry .expression index
    exact ⟨peak, hpeak, congrArg (Prod.map Answer.expression id) hrun⟩
  | operand index =>
    obtain ⟨peak, hpeak, hrun⟩ := htry .operand index
    exact ⟨peak, hpeak, congrArg (Prod.map Answer.operand id) hrun⟩
  | column index =>
    obtain ⟨peak, hpeak, hrun⟩ := htry .column index
    exact ⟨peak, hpeak, congrArg (Prod.map Answer.column id) hrun⟩

theorem askAll_keeps (requests : List Request) {gauge : Gauge} (hdepth : gauge.depth = 0)
    (hpeak : gauge.peak ≤ r.maxDepth) :
    (r.askAll requests gauge).map Prod.fst = requests.map r.answer ∧
      ∀ step ∈ r.askAll requests gauge, step.2.depth = 0 ∧ step.2.peak ≤ r.maxDepth := by
  induction requests generalizing gauge with
  | nil => exact ⟨rfl, fun _ hstep => absurd hstep List.not_mem_nil⟩
  | cons request requests ih =>
    obtain ⟨peak, hpeak', hask⟩ := r.ask_keeps request hdepth
    have hle : peak ≤ r.maxDepth := by omega
    obtain ⟨hanswers, hgauges⟩ := @ih ⟨0, peak⟩ rfl hle
    simp only [askAll, hask, List.map_cons, hanswers, true_and]
    exact List.forall_mem_cons.mpr ⟨⟨rfl, hle⟩, hgauges⟩

/-- Requests are answered one after another as by an unused reader each, with the gauge down again
behind every answer and never above the limit. In general every routine leaves the gauge where it
was, whether it matches, finds nothing or fails, and reads what the grammar reads with the room that
is left. -/
theorem askAll_anew (requests : List Request) :
    (r.askAll requests .unused).map Prod.fst =
      requests.map (fun request => (r.ask request .unused).1) ∧
    (∀ step ∈ r.askAll requests .unused, step.2.depth = 0 ∧ step.2.peak ≤ r.maxDepth) ∧
    (∀ request, (r.ask request .unused).1 = r.answer request) ∧
    ∀ d,
      (∀ (α : Type) (routine : Routine Token α), (routine.program r.maxDepth).Keeps r.maxDepth d
        (routine.rule (r.maxDepth - d)).optional.read) ∧
      (Counting.clauses r.maxDepth).Keeps r.maxDepth d
        (Grammar.clauses (r.maxDepth - d) : Step Token _).read ∧
      (Counting.script r.maxDepth).Keeps r.maxDepth d fun input : Input Token =>
        (Grammar.script (r.maxDepth - d) input).result.map (·, []) := by
  have hfresh : ∀ request, (r.ask request .unused).1 = r.answer request := fun request => by
    obtain ⟨_, -, hask⟩ := @ask_keeps r request .unused rfl
    rw [hask]
  obtain ⟨hanswers, hgauges⟩ := @askAll_keeps r requests .unused rfl (Nat.zero_le _)
  have hall : (fun request => (r.ask request .unused).1) = r.answer := funext hfresh
  rw [hall]
  exact ⟨hanswers, hgauges, hfresh, fun d => ⟨fun _ routine => routine.keeps, .clauses, .script⟩⟩

end Reader

end SqlScript

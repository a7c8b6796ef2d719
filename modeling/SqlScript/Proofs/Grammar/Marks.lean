import SqlScript.Proofs.Grammar.Laws
import SqlScript.Proofs.Tree.Map

/-!
# Marks are passed on and never looked at

Reading the same kinds with other marks goes the same way and gives the same tree with the other
marks, or the same failure at the other mark (`script_remark`). `Carries` says this of a rule or a
step; there is one lemma for each way of building them and one for each rule of the grammar.
-/

namespace SqlScript

variable {σ τ α β γ α' β' γ' : Type}

/-- The same kinds, each with another mark in place of its own. -/
def Input.remark (f : σ → τ) (input : Input σ) : Input τ := input.map (Prod.map id f)

namespace Input

variable {f : σ → τ}

@[simp] theorem remark_nil : remark f [] = [] := rfl

@[simp] theorem remark_cons (kind : Kind) (mark : σ) (input : Input σ) :
    remark f ((kind, mark) :: input) = (kind, f mark) :: remark f input := rfl

/-- What is read first can be given its other marks apart from the rest. -/
@[simp] theorem remark_append (I J : Input σ) : remark f (I ++ J) = remark f I ++ remark f J :=
  List.map_append

@[simp] theorem length_remark (I : Input σ) : (remark f I).length = I.length := List.length_map _

/-- A look at the next token tells its kind and its other mark. -/
@[simp] theorem head?_remark (I : Input σ) :
    (remark f I).head? = I.head?.map (Prod.map id f) := List.head?_map

end Input

/-- The same cause, at the other mark. -/
def Failure.map (f : σ → τ) (failure : Failure σ) : Failure τ :=
  ⟨failure.cause, failure.mark.map f⟩

/-- A failure at the next token has the mark of that token. -/
theorem Failure.atFront_remark (f : σ → τ) (cause : Cause) (input : Input σ) :
    atFront cause (input.remark f) = (atFront cause input).map f := by
  simp only [atFront, map, Input.head?_remark, Option.map_map]
  rfl

/-- An outcome with other marks, in what was found and in what is left. -/
def Outcome.map (f : σ → τ) (g : α → β) : Outcome σ α → Outcome τ β
  | absent => absent
  | matched value rest => matched (g value) (rest.remark f)
  | malformed failure => malformed (failure.map f)

/-- What a step gives, with other marks. -/
def Step.remark (f : σ → τ) (g : α → β) :
    Except (Failure σ) (α × Input σ) → Except (Failure τ) (β × Input τ)
  | .ok (value, rest) => .ok (g value, rest.remark f)
  | .error failure => .error (failure.map f)

/-- One rule does with other marks what another does with the given ones. -/
def Rule.Carries (f : σ → τ) (g : α → β) (rule : Rule σ α) (rule' : Rule τ β) : Prop :=
  ∀ input, rule'.read (input.remark f) = (rule.read input).map f g

/-- The same for steps. What they give is carried along by `g`. -/
def Step.Carries (f : σ → τ) (g : α → β) (step : Step σ α) (step' : Step τ β) : Prop :=
  ∀ input, step'.read (input.remark f) = Step.remark f g (step.read input)

variable {f : σ → τ} {g : α → α'} {h : β → β'}

/-! ## Steps -/

namespace Step.Carries

theorem pure {value : α} {value' : α'} (heq : g value = value') :
    (Pure.pure value : Step σ α).Carries f g (Pure.pure value') := by
  intro input
  simp [Step.remark, heq]

theorem bind {step : Step σ α} {step' : Step τ α'} {next : α → Step σ β} {next' : α' → Step τ β'}
    (hstep : step.Carries f g step') (hnext : ∀ x, (next x).Carries f h (next' (g x))) :
    (step >>= next).Carries f h (step' >>= next') := by
  intro input
  rw [Step.read_bind, Step.read_bind, hstep]
  cases step.read input with
  | error failure => rfl
  | ok found => exact hnext found.1 found.2

theorem peek : (Step.peek : Step σ _).Carries f (Option.map (Prod.map id f)) Step.peek := by
  intro input
  simp [Step.peek, Step.remark]

end Step.Carries

/-! ## Rules -/

namespace Rule

/-- Whether a token is taken is decided by its kind. -/
theorem carries_token {accept : Kind → Option α} :
    (token accept).Carries f (.map (.map f) id) (token accept) := by
  intro input
  cases input with
  | nil => rfl
  | cons first more =>
    obtain ⟨kind, mark⟩ := first
    simp only [token, Input.remark_cons]
    cases accept kind <;> rfl

theorem carries_keyword {word : String} :
    (keyword word).Carries f (.map (.map f) id) (keyword word) := carries_token

theorem carries_symbol {text : String} :
    (symbol text).Carries f (.map (.map f) id) (symbol text) := carries_token

theorem carries_name : name.Carries f (.map (.map f) id) name := carries_token

/-- Refusing fails at the next token, under its other mark. -/
theorem carries_refuse {cause : Cause} :
    (refuse cause : Rule σ α).Carries f g (refuse cause) := by
  intro input
  simp [refuse, Failure.atFront_remark, Outcome.map]

namespace Carries

variable {rule : Rule σ α} {rule' : Rule τ α'}

theorem map {k : α → β} {k' : α' → β'} (hrule : rule.Carries f g rule')
    (heq : ∀ x, k' (g x) = h (k x)) : (rule.map k).Carries f h (rule'.map k') := by
  intro input
  simp only [Rule.map, hrule input]
  cases rule.read input <;> simp [Outcome.map, heq]

/-- The first rule finds nothing under other marks where it did not under the given ones. -/
theorem orElse {other : Rule σ α} {other' : Rule τ α'} (hrule : rule.Carries f g rule')
    (hother : other.Carries f g other') : (rule <|> other).Carries f g (rule' <|> other') := by
  intro input
  simp only [HOrElse.hOrElse, OrElse.orElse, Rule.orElse, hrule input]
  cases rule.read input with
  | absent => exact hother input
  | matched value rest => rfl
  | malformed failure => rfl

theorem delay (hrule : rule.Carries f g rule') :
    (Rule.delay fun _ => rule).Carries f g (Rule.delay fun _ => rule') := hrule

/-- Two constructs in a row carry what they give as a pair. -/
theorem both {other : Rule σ β} {other' : Rule τ β'} (hrule : rule.Carries f g rule')
    (hother : other.Carries f h other') :
    (rule.both other).Carries f (Prod.map g h) (rule'.both other') := by
  intro input
  simp only [Rule.both, hrule input]
  cases rule.read input with
  | absent => rfl
  | malformed failure => rfl
  | matched value middle =>
    simp only [Outcome.map, hother middle]
    cases other.read middle <;> rfl

/-- What follows may depend on what was found, and then on what it is carried to. -/
theorem andThen {next : α → Step σ β} {next' : α' → Step τ β'} (hrule : rule.Carries f g rule')
    (hnext : ∀ x, (next x).Carries f h (next' (g x))) :
    (rule.andThen next).Carries f h (rule'.andThen next') := by
  intro input
  simp only [Rule.andThen, hrule input]
  cases rule.read input with
  | absent => rfl
  | malformed failure => rfl
  | matched value middle =>
    simp only [Outcome.map, hnext value middle]
    cases (next value).read middle <;> rfl

/-- The failure has to be carried along as well. -/
theorem requireOr {failure : Input σ → Failure σ} {failure' : Input τ → Failure τ}
    (hrule : rule.Carries f g rule')
    (hfailure : ∀ input, failure' (input.remark f) = (failure input).map f) :
    (rule.requireOr failure).Carries f g (rule'.requireOr failure') := by
  intro input
  simp only [Rule.requireOr, hrule input]
  cases rule.read input <;> simp [Outcome.map, Step.remark, hfailure]

theorem require {cause : Cause} (hrule : rule.Carries f g rule') :
    (rule.require cause).Carries f g (rule'.require cause) :=
  hrule.requireOr (Failure.atFront_remark f cause)

theorem optional (hrule : rule.Carries f g rule') :
    rule.optional.Carries f (Option.map g) rule'.optional := by
  intro input
  simp only [Rule.optional, hrule input]
  cases rule.read input <;> rfl

/-- By induction on the links: each leaves less input than there was before it. -/
theorem links {separator : Rule σ β} {separator' : Rule τ β'} {missing : β → Cause}
    {missing' : β' → Cause} (hrule : rule.Carries f g rule')
    (hseparator : separator.Carries f h separator') (hmissing : ∀ x, missing' (h x) = missing x) :
    (rule.links separator missing).Carries f (List.map (Prod.map h g))
      (rule'.links separator' missing') := by
  intro input
  show readLinks rule' separator' missing' _ =
    Step.remark f _ (readLinks rule separator missing input)
  -- what is missing behind a separator depends on the separator, whose mark is another one here
  have hrequire : ∀ link, (rule.require (missing link)).Carries f g
      (rule'.require (missing' (h link))) := fun link => by
    rw [hmissing]
    exact hrule.require
  fun_induction readLinks rule separator missing input with
  | case1 input habsent => rw [readLinks_eq, hseparator, habsent]; rfl
  | case2 input failure hfailure => rw [readLinks_eq, hseparator, hfailure]; rfl
  | case3 input link middle hlink failure hfailure =>
    rw [readLinks_eq, hseparator, hlink]
    simp only [Outcome.map, hrequire link middle, hfailure]
    rfl
  | case4 input link middle hlink value rest hvalue failure hfailure ih =>
    rw [readLinks_eq, hseparator, hlink]
    simp only [Outcome.map, hrequire link middle, hvalue, Step.remark, ih, hfailure]
  | case5 input link middle hlink value rest hvalue more stop hmore ih =>
    rw [readLinks_eq, hseparator, hlink]
    simp only [Outcome.map, hrequire link middle, hvalue, Step.remark, ih, hmore]
    rfl

/-- An item and its links are carried together. -/
theorem chain {separator : Rule σ β} {separator' : Rule τ β'} {missing : β → Cause}
    {missing' : β' → Cause} (hrule : rule.Carries f g rule')
    (hseparator : separator.Carries f h separator') (hmissing : ∀ x, missing' (h x) = missing x) :
    (rule.chain separator missing).Carries f (Prod.map g (List.map (Prod.map h g)))
      (rule'.chain separator' missing') :=
  hrule.andThen fun _ => (hrule.links hseparator hmissing).bind fun _ => .pure rfl

/-- The separators are forgotten once they are read. -/
theorem commaList {kind : Listed} (hrule : rule.Carries f g rule') :
    (rule.commaList kind).Carries f (Prod.map g (List.map g)) (rule'.commaList kind) :=
  (hrule.chain carries_symbol fun _ => rfl).map fun _ => by simp [Function.comp_def]

end Carries

end Rule

/-! ## The grammar -/

namespace Grammar

variable (f : σ → τ)

/-- One name or two: the span goes from the first to the last. -/
theorem carries_qualified (missing : Cause) :
    (qualified missing).Carries f (.map (.map f) id) (qualified missing) := by
  refine Rule.carries_name.andThen fun first => Rule.carries_symbol.optional.bind fun dot => ?_
  cases dot with
  | none => exact .pure rfl
  | some _ => exact Rule.carries_name.require.bind fun second => .pure rfl

theorem carries_tableRef : tableRef.Carries f (.map (.map f) id) tableRef :=
  (carries_qualified f _).map fun _ => rfl

theorem carries_columnRef : columnRef.Carries f (.map (.map f) id) columnRef :=
  (carries_qualified f _).map fun _ => rfl

section Expression

variable {f} {inner : Rule σ (Operand (Span σ))} {inner' : Rule τ (Operand (Span τ))}

/-- Putting a chain in postfix order is carried along, as no annotation has a part in it. -/
theorem carries_expressionOf (hinner : inner.Carries f (.map (.map f)) inner') :
    (expressionOf inner).Carries f (.map (.map f)) (expressionOf inner') := by
  refine (hinner.chain Rule.carries_token fun _ => rfl).map fun ⟨first, links⟩ => ?_
  show Expr.postfixed _ _ = Expr.postfixed _ _
  rw [Item.mapAll_eq, ← Yard.postfixed_map, ← chainSpan_map]

/-- The failure is at NOT itself, whose mark is carried along in its span. -/
theorem carries_negation (hinner : inner.Carries f (.map (.map f)) inner') :
    (negation inner).Carries f (.map (.map f)) (negation inner') := by
  refine Rule.carries_keyword.andThen fun key => ?_
  refine (hinner.requireOr fun _ => rfl).bind fun value => .pure ?_
  simp [Operand.map, Spanned.map]

/-- A call spans from its name to the closing parenthesis. -/
theorem carries_call {argument : Rule σ (Expr (Span σ))} {argument' : Rule τ (Expr (Span τ))}
    (hargument : argument.Carries f (.map (.map f)) argument') :
    (call argument).Carries f (.map (.map f)) (call argument') := by
  refine (Rule.carries_name.both Rule.carries_symbol).andThen fun ⟨function, _⟩ => ?_
  refine hargument.commaList.optional.bind fun args => ?_
  refine Rule.carries_symbol.require.bind fun close => .pure ?_
  cases args <;> simp [Operand.map, Spanned.map]

end Expression

/-- By induction on the depth that is left. -/
theorem carries_operand (depth : Nat) :
    (operand depth).Carries f (.map (.map f)) (operand depth) := by
  induction depth with
  | zero => exact Rule.carries_refuse
  | succ depth ih =>
    refine Rule.Carries.delay ((carries_negation ih).orElse
      ((carries_call (carries_expressionOf ih)).orElse (.orElse ?_ ?_)))
    · exact (carries_columnRef f).map fun _ => rfl
    · exact Rule.carries_token.map fun _ => rfl

theorem carries_expression (depth : Nat) :
    (expression depth).Carries f (.map (.map f)) (expression depth) :=
  carries_expressionOf (carries_operand f depth)

/-- A clause that is a list behind its key. -/
theorem listed_map {α : Type} (key : Span σ) (first : Spanned (Span σ) α)
    (more : List (Spanned (Span σ) α)) :
    Spanned.map (Span.map f) (List.map (Spanned.map (Span.map f) id))
        ⟨key.through (listSpan Spanned.span first more), first :: more⟩ =
      ⟨(key.map f).through
          (listSpan Spanned.span (first.map (.map f) id) (more.map (.map (.map f) id))),
        (first :: more).map (.map (.map f) id)⟩ := by
  have hspan : listSpan Spanned.span (first.map (.map f) id) (more.map (.map (.map f) id)) =
      (listSpan Spanned.span first more).map f :=
    listSpan_map Spanned.span Spanned.span (fun _ => rfl) first more
  rw [Spanned.map, Span.map_through, ← hspan]

theorem carries_fromClause :
    fromClause.Carries f (.map (.map f) (List.map (.map (.map f) id))) fromClause := by
  refine Rule.carries_keyword.andThen fun key => ?_
  exact (carries_tableRef f).commaList.require.bind fun _ => .pure (listed_map f _ _ _)

theorem carries_whereClause (depth : Nat) :
    (whereClause depth).Carries f (.map (.map f) (.map (.map f))) (whereClause depth) := by
  refine Rule.carries_keyword.andThen fun key => ?_
  refine (carries_expression f depth).require.bind fun condition => .pure ?_
  simp [Spanned.map]

theorem carries_orderClause :
    orderClause.Carries f (.map (.map f) (List.map (.map (.map f) id))) orderClause := by
  refine (Rule.carries_keyword.both Rule.carries_keyword).andThen fun ⟨key, _⟩ => ?_
  exact (carries_columnRef f).commaList.require.bind fun _ => .pure (listed_map f _ _ _)

/-- Clauses are three optional steps. -/
theorem carries_clauses (depth : Nat) :
    (clauses depth).Carries f (.map (.map f)) (clauses depth) :=
  (carries_fromClause f).optional.bind fun _ =>
    (carries_whereClause f depth).optional.bind fun _ =>
      (carries_orderClause f).optional.bind fun _ => .pure rfl

/-- A draft under other marks, that of the dropped ORDER BY among them. -/
def Draft.map (d : Draft σ) : Draft τ :=
  ⟨d.dropped.map f, (d.statement.map (.map (.map f))).mapError (.map f)⟩

/-- The message names the next kind and no mark. -/
theorem carries_useStatement :
    useStatement.Carries f (.map f) useStatement := by
  refine Rule.carries_keyword.andThen fun key => .bind .peek fun found => ?_
  have hcause : Cause.databaseName ((found.map (Prod.map id f)).map Prod.fst) =
      .databaseName (found.map Prod.fst) := by
    rw [Option.map_map]
    rfl
  rw [hcause]
  exact Rule.carries_name.require.bind fun database => .pure rfl

/-- Whether clauses are kept is decided by which ones there are. -/
theorem carries_selectStatement (depth : Nat) :
    (selectStatement depth).Carries f (.map f) (selectStatement depth) := by
  refine Rule.carries_keyword.andThen fun key => ?_
  refine (carries_expression f depth).commaList.optional.bind fun list => ?_
  cases list with
  | none => exact .pure rfl
  | some list =>
    refine (carries_clauses f depth).bind fun c => .pure ?_
    obtain ⟨first, more⟩ := list
    have hlisted := listSpan_map Expr.span Expr.span (Expr.span_map (Span.map f)) first more
    simp only [Draft.map, Clauses.dropped?_map, Clauses.span?_map, Clauses.kept?_map, hlisted,
      Option.map_map]
    cases c.span? <;> rfl

/-- Nine steps, one after another. -/
theorem carries_insertStatement (depth : Nat) :
    (insertStatement depth).Carries f (.map f) (insertStatement depth) := by
  refine Rule.carries_keyword.andThen fun key => ?_
  refine Rule.carries_keyword.require.bind fun _ => ?_
  refine (carries_tableRef f).require.bind fun table => ?_
  refine Rule.carries_symbol.require.bind fun _ => ?_
  refine (carries_columnRef f).commaList.require.bind fun ⟨column, columns⟩ => ?_
  refine Rule.carries_symbol.require.bind fun _ => ?_
  refine Rule.carries_keyword.require.bind fun _ => ?_
  refine Rule.carries_symbol.require.bind fun _ => ?_
  refine (carries_expression f depth).commaList.require.bind fun ⟨value, values⟩ => ?_
  exact Rule.carries_symbol.require.bind fun close => .pure rfl

/-- Without FROM and WHERE the failure is at the token that was looked at before the clauses. -/
theorem carries_deleteStatement (depth : Nat) :
    (deleteStatement depth).Carries f (.map f) (deleteStatement depth) := by
  refine Rule.carries_keyword.andThen fun key => .bind .peek fun found => ?_
  refine (carries_clauses f depth).bind fun c => .pure ?_
  simp only [Draft.map, Clauses.dropped?_map, Clauses.kept?_map, Option.map_map]
  cases c.kept? with
  | none => cases found <;> rfl
  | some kept => rfl

/-- The four statements, tried in turn. -/
theorem carries_statement (depth : Nat) :
    (statement depth).Carries f (.map f) (statement depth) :=
  (carries_useStatement f).orElse ((carries_selectStatement f depth).orElse
    ((carries_insertStatement f depth).orElse (carries_deleteStatement f depth)))

/-- A reading under other marks. -/
def Reading.map (r : Reading σ) : Reading τ :=
  ⟨r.dropped.map f, (r.result.map (List.map (.map (.map f)))).mapError (.map f)⟩

/-- One step of the recursion, for what is not at its end. -/
theorem script_cons (depth : Nat) (kind : Kind) (mark : σ) (input : Input σ) :
    script depth ((kind, mark) :: input) =
      if kind = .symbol ";" then script depth input
      else match (statement depth).read ((kind, mark) :: input) with
        | .absent => ⟨[], .error ⟨.statement, some mark⟩⟩
        | .malformed failure => ⟨[], .error failure⟩
        | .matched draft rest =>
          match draft.statement with
          | .error failure => ⟨draft.dropped.toList, .error failure⟩
          | .ok statement => (script depth rest).prepend draft statement := by
  rw [script]
  split
  · rfl
  · split
    · next hread => simp only [hread]
    · next hread => simp only [hread]
    · next draft rest hread =>
      cases hs : draft.statement <;> simp only [hread, hs]

/-- The statements are those under the given marks. -/
theorem Reading.map_ok {r : Reading σ} {trees : List (Statement (Span τ))} :
    (r.map f).result = .ok trees ↔
      ∃ ss, r.result = .ok ss ∧ ss.map (.map (.map f)) = trees := by
  obtain ⟨_, result⟩ := r
  cases result with
  | error failure => exact ⟨nofun, fun ⟨_, h, _⟩ => nomatch h⟩
  | ok ss =>
    refine ⟨fun h => ⟨ss, rfl, Except.ok.inj h⟩, ?_⟩
    rintro ⟨_, h, rfl⟩
    cases h
    rfl

/-- The failure is the one under the given marks. -/
theorem Reading.map_error {r : Reading σ} {failure : Failure τ} :
    (r.map f).result = .error failure ↔ ∃ g, r.result = .error g ∧ g.map f = failure := by
  obtain ⟨_, result⟩ := r
  cases result with
  | ok ss => exact ⟨nofun, fun ⟨_, h, _⟩ => nomatch h⟩
  | error g =>
    refine ⟨fun h => ⟨g, rfl, Except.error.inj h⟩, ?_⟩
    rintro ⟨_, h, rfl⟩
    cases h
    rfl

/-- What a statement leaves behind is carried along with it. -/
theorem prepend_map (draft : Draft σ) (s : Statement (Span σ)) (r : Reading σ) :
    (r.prepend draft s).map f = (r.map f).prepend (draft.map f) (s.map (.map f)) := by
  obtain ⟨dropped, result⟩ := r
  obtain ⟨first, _⟩ := draft
  cases first <;> cases result <;> rfl

/-- By induction on the recursion of `script`, which goes the same way for both. -/
theorem script_remark (depth : Nat) (input : Input σ) :
    script depth (input.remark f) = (script depth input).map f := by
  fun_induction script depth input with
  | case1 => rw [Input.remark_nil, script]; rfl
  | case2 mark input ih => rw [Input.remark_cons, script_cons, if_pos rfl, ih]
  | case3 kind mark input hkind habsent =>
    rw [Input.remark_cons, script_cons, if_neg hkind, ← Input.remark_cons, carries_statement f,
      habsent]
    rfl
  | case4 kind mark input hkind failure hfailure =>
    rw [Input.remark_cons, script_cons, if_neg hkind, ← Input.remark_cons, carries_statement f,
      hfailure]
    rfl
  | case5 kind mark input hkind draft rest hread failure hfailure =>
    rw [Input.remark_cons, script_cons, if_neg hkind, ← Input.remark_cons, carries_statement f,
      hread]
    have hstatement : (draft.map f).statement = .error (failure.map f) := by
      rw [Draft.map, hfailure]
      rfl
    simp only [Outcome.map, hstatement]
    rw [Draft.map, Option.toList_map]
    rfl
  | case6 kind mark input hkind draft rest hread s hs ih =>
    rw [Input.remark_cons, script_cons, if_neg hkind, ← Input.remark_cons, carries_statement f,
      hread]
    have hstatement : (draft.map f).statement = .ok (s.map (.map f)) := by
      rw [Draft.map, hs]
      rfl
    simp only [Outcome.map, hstatement, ih, prepend_map]

end Grammar

end SqlScript

import SqlScript.Proofs.Grammar.Marks
import SqlScript.Proofs.Grammar.Statement

/-!
# What a lower depth limit changes

With a lower limit reading goes the same way, or it finds that operands lie too deep inside one
another; that takes at least as many tokens as the limit allows operands (`script_limits`).
`Limits` says this of two rules or steps that differ in their limits; there is one lemma for each
way of building them and one for each rule of the grammar.
-/

namespace SqlScript

variable {σ α β : Type} {d e : Nat}

/-- With room for `d` operands inside one another a rule does what another does, or finds that there
are more of them. -/
def Rule.Limits (d : Nat) (rule rule' : Rule σ α) : Prop :=
  ∀ I, (∃ mark, rule.read I = .malformed ⟨.tooDeep, mark⟩ ∧ d ≤ I.length) ∨
    rule'.read I = rule.read I ∧ ∀ mark, rule.read I ≠ .malformed ⟨.tooDeep, mark⟩

/-- The same for steps. -/
def Step.Limits (d : Nat) (step step' : Step σ α) : Prop :=
  ∀ I, (∃ mark, step.read I = .error ⟨.tooDeep, mark⟩ ∧ d ≤ I.length) ∨
    step'.read I = step.read I ∧ ∀ mark, step.read I ≠ .error ⟨.tooDeep, mark⟩

/-! ## Steps -/

namespace Step.Limits

theorem pure (value : α) : (Pure.pure value : Step σ α).Limits d (Pure.pure value) :=
  fun _ => .inr ⟨rfl, nofun⟩

theorem peek : (Step.peek : Step σ _).Limits d Step.peek := fun _ => .inr ⟨rfl, nofun⟩

/-- Behind a step there is less input, and what it has room for stays room enough. -/
theorem bind {step step' : Step σ α} {next next' : α → Step σ β} (hstep : step.Limits d step')
    (hnext : ∀ x, (next x).Limits d (next' x)) :
    (step >>= next).Limits d (step' >>= next') := by
  intro I
  simp only [Step.read_bind]
  rcases hstep I with ⟨mark, hdeep, hroom⟩ | ⟨heq, hnot⟩
  · exact .inl ⟨mark, by rw [hdeep], hroom⟩
  · rw [heq]
    cases hread : step.read I with
    | error failure => exact .inr ⟨rfl, fun mark => by simpa [hread] using hnot mark⟩
    | ok found =>
      rcases hnext found.1 found.2 with ⟨mark, hdeep, hroom⟩ | hsame
      · exact .inl ⟨mark, hdeep, Nat.le_trans hroom (step.shrinks hread)⟩
      · exact .inr hsame

end Step.Limits

/-! ## Rules -/

namespace Rule

/-- One token has no operands in it. -/
theorem limits_token {accept : Kind → Option α} :
    (token accept : Rule σ _).Limits d (token accept) := by
  refine fun I => .inr ⟨rfl, fun mark h => ?_⟩
  cases I with
  | nil => cases h
  | cons first more =>
    simp only [token] at h
    split at h <;> cases h

/-- Without any room every operand is one too many. -/
theorem limits_refuse (rule : Rule σ α) : (refuse .tooDeep).Limits 0 rule := fun _ =>
  .inl ⟨_, rfl, Nat.zero_le _⟩

namespace Limits

variable {rule rule' : Rule σ α}

/-- What is found is mapped, failures are not. -/
theorem map {f : α → β} (hrule : rule.Limits d rule') : (rule.map f).Limits d (rule'.map f) := by
  intro I
  simp only [Rule.map]
  rcases hrule I with ⟨mark, hdeep, hroom⟩ | ⟨heq, hnot⟩
  · exact .inl ⟨mark, by rw [hdeep], hroom⟩
  · rw [heq]
    refine .inr ⟨rfl, fun mark => ?_⟩
    cases hread : rule.read I <;> simp
    simpa [hread] using hnot mark

/-- The second rule has its turn under both limits or under none. -/
theorem orElse {other other' : Rule σ α} (hrule : rule.Limits d rule')
    (hother : other.Limits d other') : (rule <|> other).Limits d (rule' <|> other') := by
  intro I
  simp only [HOrElse.hOrElse, OrElse.orElse, Rule.orElse]
  rcases hrule I with ⟨mark, hdeep, hroom⟩ | ⟨heq, hnot⟩
  · exact .inl ⟨mark, by rw [hdeep], hroom⟩
  · rw [heq]
    cases hread : rule.read I with
    | absent => exact hother I
    | matched value rest => exact .inr ⟨rfl, fun mark hmark => by cases hmark⟩
    | malformed failure => exact .inr ⟨rfl, fun mark => by simpa [hread] using hnot mark⟩

theorem delay (hrule : rule.Limits d rule') :
    (Rule.delay fun _ => rule).Limits d (Rule.delay fun _ => rule') := hrule

/-- Two constructs in a row have the same room, one after another. -/
theorem both {other other' : Rule σ β} (hrule : rule.Limits d rule')
    (hother : other.Limits d other') : (rule.both other).Limits d (rule'.both other') := by
  intro I
  simp only [Rule.both]
  rcases hrule I with ⟨mark, hdeep, hroom⟩ | ⟨heq, hnot⟩
  · exact .inl ⟨mark, by rw [hdeep], hroom⟩
  · rw [heq]
    cases hread : rule.read I with
    | absent => exact .inr ⟨rfl, fun mark hmark => by cases hmark⟩
    | malformed failure => exact .inr ⟨rfl, fun mark => by simpa [hread] using hnot mark⟩
    | matched value middle =>
      have hshorter := Nat.le_of_lt (rule.shrinks hread)
      simp only
      rcases hother middle with ⟨mark, hdeep, hroom⟩ | ⟨heq', hnot'⟩
      · exact .inl ⟨mark, by rw [hdeep], Nat.le_trans hroom hshorter⟩
      · rw [heq']
        refine .inr ⟨rfl, fun mark => ?_⟩
        cases hread' : other.read middle <;> simp
        simpa [hread'] using hnot' mark

/-- What has begun took a token, so what follows it may have room for one operand less. -/
theorem andThen {next next' : α → Step σ β} (hrule : rule.Limits e rule') (hle : e ≤ d + 1)
    (hnext : ∀ x, (next x).Limits d (next' x)) :
    (rule.andThen next).Limits e (rule'.andThen next') := by
  intro I
  simp only [Rule.andThen]
  rcases hrule I with ⟨mark, hdeep, hroom⟩ | ⟨heq, hnot⟩
  · exact .inl ⟨mark, by rw [hdeep], hroom⟩
  · rw [heq]
    cases hread : rule.read I with
    | absent => exact .inr ⟨rfl, fun mark hmark => by cases hmark⟩
    | malformed failure => exact .inr ⟨rfl, fun mark => by simpa [hread] using hnot mark⟩
    | matched value middle =>
      have hshorter := rule.shrinks hread
      simp only
      rcases hnext value middle with ⟨mark, hdeep, hroom⟩ | ⟨heq', hnot'⟩
      · exact .inl ⟨mark, by rw [hdeep], by omega⟩
      · rw [heq']
        refine .inr ⟨rfl, fun mark => ?_⟩
        cases hread' : (next value).read middle <;> simp
        simpa [hread'] using hnot' mark

/-- What is missing must not look like what is too deep. -/
theorem requireOr {failure : Input σ → Failure σ} (hrule : rule.Limits d rule')
    (hfailure : ∀ I, (failure I).cause ≠ .tooDeep) :
    (rule.requireOr failure).Limits d (rule'.requireOr failure) := by
  intro I
  simp only [Rule.requireOr]
  rcases hrule I with ⟨mark, hdeep, hroom⟩ | ⟨heq, hnot⟩
  · exact .inl ⟨mark, by rw [hdeep], hroom⟩
  · rw [heq]
    refine .inr ⟨rfl, fun mark => ?_⟩
    cases hread : rule.read I with
    | absent => exact fun h => hfailure I (by rw [Except.error.inj h])
    | matched value rest => exact fun hmark => by cases hmark
    | malformed failure => simpa [hread] using hnot mark

theorem require {cause : Cause} (hrule : rule.Limits d rule') (hcause : cause ≠ .tooDeep) :
    (rule.require cause).Limits d (rule'.require cause) :=
  hrule.requireOr fun _ => hcause

/-- What is too deep has begun, and so it is not absent. -/
theorem optional (hrule : rule.Limits d rule') : rule.optional.Limits d rule'.optional := by
  intro I
  simp only [Rule.optional]
  rcases hrule I with ⟨mark, hdeep, hroom⟩ | ⟨heq, hnot⟩
  · exact .inl ⟨mark, by rw [hdeep], hroom⟩
  · rw [heq]
    refine .inr ⟨rfl, fun mark => ?_⟩
    cases hread : rule.read I <;> simp
    simpa [hread] using hnot mark

/-- By induction on the links, whose items all have the same room. -/
theorem links {separator : Rule σ β} {missing : β → Cause} (hrule : rule.Limits d rule')
    (hseparator : separator.Limits d separator) (hmissing : ∀ x, missing x ≠ .tooDeep) :
    (rule.links separator missing).Limits d (rule'.links separator missing) := by
  have hrequire := fun link => hrule.require (hmissing link)
  intro I
  show (∃ mark, readLinks rule separator missing I = _ ∧ _) ∨
    readLinks rule' separator missing I = readLinks rule separator missing I ∧
      ∀ mark, readLinks rule separator missing I ≠ _
  fun_induction readLinks rule separator missing I with
  | case1 I habsent =>
    rw [readLinks_eq, habsent]
    exact .inr ⟨rfl, fun mark hmark => by cases hmark⟩
  | case2 I failure hfailure =>
    rcases hseparator I with ⟨mark, hdeep, hroom⟩ | ⟨-, hnot⟩
    · cases hfailure.symm.trans hdeep
      exact .inl ⟨mark, rfl, hroom⟩
    · rw [readLinks_eq, hfailure]
      exact .inr ⟨rfl, fun mark => by simpa [hfailure] using hnot mark⟩
  | case3 I link middle hlink failure hfailure =>
    have hshorter := Nat.le_of_lt (separator.shrinks hlink)
    rw [readLinks_eq, hlink]
    rcases hrequire link middle with ⟨mark, hdeep, hroom⟩ | ⟨heq, hnot⟩
    · cases hfailure.symm.trans hdeep
      exact .inl ⟨mark, rfl, Nat.le_trans hroom hshorter⟩
    · simp only [heq, hfailure]
      exact .inr ⟨trivial, fun mark => by simpa [hfailure] using hnot mark⟩
  | case4 I link middle hlink value rest hvalue failure hfailure ih =>
    have hshorter := Nat.le_trans ((rule.require _).shrinks hvalue)
      (Nat.le_of_lt (separator.shrinks hlink))
    rw [readLinks_eq, hlink]
    rcases hrequire link middle with ⟨mark, hdeep, -⟩ | ⟨heq, -⟩
    · cases hvalue.symm.trans hdeep
    · simp only [heq, hvalue]
      rcases ih with ⟨mark, hdeep, hroom⟩ | ⟨heq', hnot⟩
      · cases hfailure.symm.trans hdeep
        exact .inl ⟨mark, rfl, Nat.le_trans hroom hshorter⟩
      · rw [heq', hfailure]
        exact .inr ⟨rfl, fun mark => by simpa [hfailure] using hnot mark⟩
  | case5 I link middle hlink value rest hvalue more stop hmore ih =>
    rw [readLinks_eq, hlink]
    rcases hrequire link middle with ⟨mark, hdeep, -⟩ | ⟨heq, -⟩
    · cases hvalue.symm.trans hdeep
    · simp only [heq, hvalue]
      rcases ih with ⟨mark, hdeep, -⟩ | ⟨heq', -⟩
      · cases hmore.symm.trans hdeep
      · rw [heq', hmore]
        exact .inr ⟨rfl, fun mark hmark => by cases hmark⟩

/-- Operands side by side are not inside one another. -/
theorem chain {separator : Rule σ β} {missing : β → Cause} (hrule : rule.Limits d rule')
    (hseparator : separator.Limits d separator) (hmissing : ∀ x, missing x ≠ .tooDeep) :
    (rule.chain separator missing).Limits d (rule'.chain separator missing) :=
  hrule.andThen (Nat.le_succ d) fun _ =>
    (hrule.links hseparator hmissing).bind fun _ => .pure _

theorem commaList {kind : Listed} (hrule : rule.Limits d rule') :
    (rule.commaList kind).Limits d (rule'.commaList kind) :=
  (hrule.chain limits_token fun _ => by nofun).map

end Limits

end Rule

/-! ## The grammar -/

namespace Grammar

/-- Names have no operands in them; so the rules for them are the same under all limits. -/
theorem limits_qualified {missing : Cause} (h : missing ≠ .tooDeep) :
    (qualified missing : Rule σ _).Limits d (qualified missing) := by
  refine Rule.limits_token.andThen (Nat.le_succ d) fun first => ?_
  refine Rule.limits_token.optional.bind fun dot => ?_
  cases dot with
  | none => exact .pure _
  | some _ => exact (Rule.limits_token.require h).bind fun second => .pure _

theorem limits_tableRef : (tableRef : Rule σ _).Limits d tableRef :=
  (limits_qualified (by nofun)).map

theorem limits_columnRef : (columnRef : Rule σ _).Limits d columnRef :=
  (limits_qualified (by nofun)).map

section Expression

variable {inner inner' : Rule σ (Operand (Span σ))}

theorem limits_expressionOf (h : inner.Limits d inner') :
    (expressionOf inner).Limits d (expressionOf inner') :=
  (h.chain Rule.limits_token fun _ => by nofun).map

/-- NOT takes one token and makes its operand one deeper. -/
theorem limits_negation (h : inner.Limits d inner') :
    (negation inner).Limits (d + 1) (negation inner') := by
  refine Rule.limits_token.andThen (Nat.le_refl _) fun key => ?_
  exact (h.requireOr fun _ => by nofun).bind fun value => .pure _

/-- A call takes two tokens and makes its arguments one deeper. -/
theorem limits_call {argument argument' : Rule σ (Expr (Span σ))}
    (h : argument.Limits d argument') : (call argument).Limits (d + 1) (call argument') := by
  refine (Rule.limits_token.both Rule.limits_token).andThen (Nat.le_refl _) fun ⟨_, _⟩ => ?_
  refine h.commaList.optional.bind fun args => ?_
  exact (Rule.limits_token.require (by nofun)).bind fun close => .pure _

end Expression

/-- By induction on the lower limit. At its end reading is refused. -/
theorem limits_operand (h : d ≤ e) : (operand d : Rule σ _).Limits d (operand e) := by
  induction d generalizing e with
  | zero => exact Rule.limits_refuse _
  | succ d ih =>
    cases e with
    | zero => exact absurd h (Nat.not_succ_le_zero d)
    | succ e =>
      have hinner := ih (Nat.le_of_succ_le_succ h)
      refine Rule.Limits.delay ((limits_negation hinner).orElse
        ((limits_call (limits_expressionOf hinner)).orElse (.orElse ?_ ?_)))
      · exact limits_columnRef.map
      · exact Rule.limits_token.map

theorem limits_expression (h : d ≤ e) : (expression d : Rule σ _).Limits d (expression e) :=
  limits_expressionOf (limits_operand h)

theorem limits_fromClause : (fromClause : Rule σ _).Limits d fromClause := by
  refine Rule.limits_token.andThen (Nat.le_succ d) fun key => ?_
  exact (limits_tableRef.commaList.require (by nofun)).bind fun ⟨_, _⟩ => .pure _

theorem limits_whereClause (h : d ≤ e) : (whereClause d : Rule σ _).Limits d (whereClause e) := by
  refine Rule.limits_token.andThen (Nat.le_succ d) fun key => ?_
  exact ((limits_expression h).require (by nofun)).bind fun _ => .pure _

theorem limits_orderClause : (orderClause : Rule σ _).Limits d orderClause := by
  refine (Rule.limits_token.both Rule.limits_token).andThen (Nat.le_succ d) fun ⟨_, _⟩ => ?_
  exact (limits_columnRef.commaList.require (by nofun)).bind fun ⟨_, _⟩ => .pure _

/-- Of the clauses only WHERE depends on the limit. -/
theorem limits_clauses (h : d ≤ e) : (clauses d : Step σ _).Limits d (clauses e) :=
  limits_fromClause.optional.bind fun _ => (limits_whereClause h).optional.bind fun _ =>
    limits_orderClause.optional.bind fun _ => .pure _

theorem limits_useStatement : (useStatement : Rule σ _).Limits d useStatement := by
  refine Rule.limits_token.andThen (Nat.le_succ d) fun key => ?_
  refine .bind .peek fun found => ?_
  exact (Rule.limits_token.require (by nofun)).bind fun _ => .pure _

theorem limits_selectStatement (h : d ≤ e) :
    (selectStatement d : Rule σ _).Limits d (selectStatement e) := by
  refine Rule.limits_token.andThen (Nat.le_succ d) fun key => ?_
  refine (limits_expression h).commaList.optional.bind fun list => ?_
  cases list with
  | none => exact .pure _
  | some list => exact (limits_clauses h).bind fun _ => .pure _

theorem limits_insertStatement (h : d ≤ e) :
    (insertStatement d : Rule σ _).Limits d (insertStatement e) := by
  refine Rule.limits_token.andThen (Nat.le_succ d) fun key => ?_
  refine (Rule.limits_token.require (by nofun)).bind fun _ => ?_
  refine (limits_tableRef.require (by nofun)).bind fun _ => ?_
  refine (Rule.limits_token.require (by nofun)).bind fun _ => ?_
  refine (limits_columnRef.commaList.require (by nofun)).bind fun ⟨_, _⟩ => ?_
  refine (Rule.limits_token.require (by nofun)).bind fun _ => ?_
  refine (Rule.limits_token.require (by nofun)).bind fun _ => ?_
  refine (Rule.limits_token.require (by nofun)).bind fun _ => ?_
  refine ((limits_expression h).commaList.require (by nofun)).bind fun ⟨_, _⟩ => ?_
  exact (Rule.limits_token.require (by nofun)).bind fun _ => .pure _

theorem limits_deleteStatement (h : d ≤ e) :
    (deleteStatement d : Rule σ _).Limits d (deleteStatement e) := by
  refine Rule.limits_token.andThen (Nat.le_succ d) fun key => ?_
  exact .bind .peek fun found => (limits_clauses h).bind fun _ => .pure _

/-- The statements but USE depend on the limit. -/
theorem limits_statement (h : d ≤ e) : (statement d : Rule σ _).Limits d (statement e) :=
  limits_useStatement.orElse ((limits_selectStatement h).orElse
    ((limits_insertStatement h).orElse (limits_deleteStatement h)))

/-- That there is nothing to delete from has nothing to do with depth. -/
theorem statement_error {I rest : Input σ} {draft failure}
    (hread : (statement d).read I = .matched draft rest) (h : draft.statement = .error failure) :
    failure.cause = .deleteTable := by
  obtain ⟨m, used, c, -, -, -, -, ⟨-, inner, -, hok⟩ | ⟨-, herror⟩⟩ :=
    deleteStatement_inv (deleteStatement_of_error hread h)
  · cases h.symm.trans hok
  · cases h.symm.trans herror
    rfl

/-- A lower limit gives the same reading, or the failure that operands lie too deep. -/
theorem script_limits (h : d ≤ e) (I : Input σ) :
    (∃ mark, (script d I).result = .error ⟨.tooDeep, mark⟩ ∧ d ≤ I.length) ∨
      script e I = script d I ∧ ∀ mark, (script d I).result ≠ .error ⟨.tooDeep, mark⟩ := by
  fun_induction script d I with
  | case1 => exact .inr ⟨script_nil, fun mark hmark => by cases hmark⟩
  | case2 m I ih =>
    rw [script_semicolon]
    rcases ih with ⟨mark, hdeep, hroom⟩ | hsame
    · exact .inl ⟨mark, hdeep, Nat.le_succ_of_le hroom⟩
    · exact .inr hsame
  | case3 kind m I hkind hread =>
    rcases limits_statement h ((kind, m) :: I) with ⟨mark, hdeep, -⟩ | ⟨heq, -⟩
    · cases hread.symm.trans hdeep
    · rw [script_cons, if_neg hkind, heq, hread]
      exact .inr ⟨rfl, fun mark hmark => by cases hmark⟩
  | case4 kind m I hkind failure hread =>
    rcases limits_statement h ((kind, m) :: I) with ⟨mark, hdeep, hroom⟩ | ⟨heq, hnot⟩
    · cases hread.symm.trans hdeep
      exact .inl ⟨mark, rfl, hroom⟩
    · rw [script_cons, if_neg hkind, heq, hread]
      exact .inr ⟨rfl, fun mark => by simpa [hread] using hnot mark⟩
  | case5 kind m I hkind draft rest hread failure hs =>
    rcases limits_statement h ((kind, m) :: I) with ⟨mark, hdeep, -⟩ | ⟨heq, -⟩
    · cases hread.symm.trans hdeep
    · rw [script_cons, if_neg hkind, heq, hread]
      simp only [hs]
      refine .inr ⟨trivial, fun mark hdeep => ?_⟩
      have hcause := statement_error hread hs
      rw [Except.error.inj hdeep] at hcause
      cases hcause
  | case6 kind m I hkind draft rest hread s hs ih =>
    rcases limits_statement h ((kind, m) :: I) with ⟨mark, hdeep, -⟩ | ⟨heq, -⟩
    · cases hread.symm.trans hdeep
    · have hshorter := (statement d).shrinks hread
      rw [script_cons, if_neg hkind, heq, hread]
      simp only [hs, Reading.prepend]
      rcases ih with ⟨mark, hdeep, hroom⟩ | ⟨hsame, hnot⟩
      · rw [hdeep]
        exact .inl ⟨mark, rfl, by omega⟩
      · rw [hsame]
        refine .inr ⟨rfl, fun mark => ?_⟩
        cases hresult : (script d rest).result with
        | ok ss => exact fun hmark => by cases hmark
        | error failure => simpa [hresult, Except.map] using hnot mark

end Grammar

end SqlScript

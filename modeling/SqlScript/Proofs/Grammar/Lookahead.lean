import SqlScript.Proofs.Grammar.Statement

/-!
# One token of lookahead

What a rule takes is told by the tokens that it takes and the one behind them (`Rule.Ends`), and
that its construct is absent by the next token alone (`Rule.Predictive`). Two places ask for more. A
name begins a call only if a parenthesis follows; but a column begins with a name too, so there is
an operand in any case. And ORDER begins a clause only if BY follows, which tells where the clauses
before it end (`clauses_ends`).
-/

namespace SqlScript

variable {σ α β : Type}

/-- Two inputs with the same next token, or both without one. -/
def SameNext (I J : Input σ) : Prop := J.head? = I.head?

/-- Behind what was read already it does not matter which token comes next. -/
theorem SameNext.append {I J : Input σ} (h : SameNext I J) (used : Input σ) :
    SameNext (used ++ I) (used ++ J) := by
  cases used with
  | nil => exact h
  | cons => rfl

/-- Whether something goes on is seen from the next token. -/
theorem SameNext.stops {continues : Kind → Bool} {I J : Input σ} (h : SameNext I J)
    (hI : Stops continues I) : Stops continues J := by
  rwa [Stops, h]

/-- What is taken depends on its own tokens and the next one. -/
structure Rule.Ends (rule : Rule σ α) : Prop where
  takes : ∀ {I x rest}, rule.read I = .matched x rest →
    ∃ used, I = used ++ rest ∧ ∀ {J}, SameNext rest J → rule.read (used ++ J) = .matched x J

structure Step.Ends (step : Step σ α) : Prop where
  takes : ∀ {I x rest}, step.read I = .ok (x, rest) →
    ∃ used, I = used ++ rest ∧ ∀ {J}, SameNext rest J → step.read (used ++ J) = .ok (x, J)

/-- Moreover the next token tells whether there is anything to take. -/
structure Rule.Predictive (rule : Rule σ α) : Prop extends rule.Ends where
  absent : ∀ {I J}, SameNext I J → rule.read I = .absent → rule.read J = .absent

/-! ## Steps -/

namespace Step.Ends

theorem pure (value : α) : (Pure.pure value : Step σ α).Ends := by
  refine ⟨fun {I x rest} h => ?_⟩
  obtain ⟨rfl, rfl⟩ := Step.pure_ok.mp h
  exact ⟨[], rfl, fun _ => rfl⟩

theorem peek : (Step.peek : Step σ _).Ends := by
  refine ⟨fun {I x rest} h => ?_⟩
  obtain ⟨rfl, rfl⟩ := Step.peek_ok.mp h
  exact ⟨[], rfl, fun hJ => Step.peek_ok.mpr ⟨hJ, rfl⟩⟩

/-- Each of two steps sees at most the token behind it. -/
theorem bind {step : Step σ α} {next : α → Step σ β} (hstep : step.Ends)
    (hnext : ∀ x, (next x).Ends) : (step >>= next).Ends := by
  refine ⟨fun {I x rest} h => ?_⟩
  obtain ⟨value, middle, hvalue, hresult⟩ := Step.bind_ok.mp h
  obtain ⟨used, rfl, hread⟩ := hstep.takes hvalue
  obtain ⟨used', rfl, hread'⟩ := (hnext value).takes hresult
  refine ⟨used ++ used', by simp, fun hJ => ?_⟩
  rw [List.append_assoc]
  exact Step.bind_ok.mpr ⟨value, _, hread (hJ.append used'), hread' hJ⟩

end Step.Ends

/-! ## Rules -/

namespace Rule

/-- A token is taken for itself, and its absence is seen from it. -/
theorem predictive_token {accept : Kind → Option α} : (token accept : Rule σ _).Predictive where
  takes {I x rest} h := by
    obtain ⟨kind, mark, rfl, haccept, hspan⟩ := token_matched.mp h
    exact ⟨[(kind, mark)], rfl, fun _ => token_matched.mpr ⟨kind, mark, rfl, haccept, hspan⟩⟩
  absent h habsent := by
    rw [token_absent] at habsent ⊢
    rwa [h]

namespace Ends

variable {rule : Rule σ α}

theorem andThen {next : α → Step σ β} (hrule : rule.Ends) (hnext : ∀ x, (next x).Ends) :
    (rule.andThen next).Ends := by
  refine ⟨fun {I x rest} h => ?_⟩
  obtain ⟨value, middle, hvalue, hresult⟩ := andThen_matched.mp h
  obtain ⟨used, rfl, hread⟩ := hrule.takes hvalue
  obtain ⟨used', rfl, hread'⟩ := (hnext value).takes hresult
  refine ⟨used ++ used', by simp, fun hJ => ?_⟩
  rw [List.append_assoc]
  exact andThen_matched.mpr ⟨value, _, hread (hJ.append used'), hread' hJ⟩

theorem both {other : Rule σ β} (hrule : rule.Ends) (hother : other.Ends) :
    (rule.both other).Ends := by
  refine ⟨fun {I x rest} h => ?_⟩
  obtain ⟨middle, hvalue, hsecond⟩ := both_matched.mp h
  obtain ⟨used, rfl, hread⟩ := hrule.takes hvalue
  obtain ⟨used', rfl, hread'⟩ := hother.takes hsecond
  refine ⟨used ++ used', by simp, fun hJ => ?_⟩
  rw [List.append_assoc]
  exact both_matched.mpr ⟨_, hread (hJ.append used'), hread' hJ⟩

theorem requireOr {failure : Input σ → Failure σ} (hrule : rule.Ends) :
    (rule.requireOr failure).Ends := by
  refine ⟨fun {I x rest} h => ?_⟩
  obtain ⟨used, rfl, hread⟩ := hrule.takes (requireOr_ok.mp h)
  exact ⟨used, rfl, fun hJ => requireOr_ok.mpr (hread hJ)⟩

theorem require {cause : Cause} (hrule : rule.Ends) : (rule.require cause).Ends :=
  hrule.requireOr

end Ends

namespace Predictive

variable {rule : Rule σ α} (hrule : rule.Predictive)
include hrule

theorem map {f : α → β} : (rule.map f).Predictive where
  takes {I x rest} h := by
    obtain ⟨value, hvalue, hx⟩ := map_matched.mp h
    obtain ⟨used, rfl, hread⟩ := hrule.takes hvalue
    exact ⟨used, rfl, fun hJ => map_matched.mpr ⟨value, hread hJ, hx⟩⟩
  absent hJ h := map_absent.mpr (hrule.absent hJ (map_absent.mp h))

/-- Whether something is absent is decided by what it begins with. -/
theorem absent_andThen {next : α → Step σ β} {I J : Input σ} (hJ : SameNext I J)
    (h : (rule.andThen next).read I = .absent) : (rule.andThen next).read J = .absent :=
  andThen_absent.mpr (hrule.absent hJ (andThen_absent.mp h))

theorem andThen {next : α → Step σ β} (hnext : ∀ x, (next x).Ends) :
    (rule.andThen next).Predictive :=
  ⟨hrule.toEnds.andThen hnext, hrule.absent_andThen⟩

/-- That nothing was taken has to be seen from the next token, too. -/
theorem optional : rule.optional.Ends := by
  refine ⟨fun {I x rest} h => ?_⟩
  rcases optional_ok.mp h with ⟨rfl, rfl, habsent⟩ | ⟨value, rfl, hvalue⟩
  · exact ⟨[], rfl, fun hJ => optional_ok.mpr (.inl ⟨rfl, rfl, hrule.absent hJ habsent⟩)⟩
  · obtain ⟨used, rfl, hread⟩ := hrule.takes hvalue
    exact ⟨used, rfl, fun hJ => optional_ok.mpr (.inr ⟨value, rfl, hread hJ⟩)⟩

/-- If the first rule finds nothing, that has to stay so for the second to have its turn. -/
theorem orElse {other : Rule σ α} (hother : other.Predictive) : (rule <|> other).Predictive where
  takes {I x rest} h := by
    rcases orElse_matched.mp h with hvalue | ⟨habsent, hvalue⟩
    · obtain ⟨used, rfl, hread⟩ := hrule.takes hvalue
      exact ⟨used, rfl, fun hJ => orElse_matched.mpr (.inl (hread hJ))⟩
    · obtain ⟨used, rfl, hread⟩ := hother.takes hvalue
      exact ⟨used, rfl, fun hJ =>
        orElse_matched.mpr (.inr ⟨hrule.absent (hJ.append used) habsent, hread hJ⟩)⟩
  absent hJ h := by
    obtain ⟨habsent, habsent'⟩ := orElse_absent.mp h
    exact orElse_absent.mpr ⟨hrule.absent hJ habsent, hother.absent hJ habsent'⟩

/-- By induction on the links. That there are no more is seen from the next token. -/
theorem links {item : Rule σ β} {missing : α → Cause} (hitem : item.Ends) :
    (item.links rule missing).Ends := by
  refine ⟨fun {I found rest} h => ?_⟩
  induction found generalizing I with
  | nil =>
    rcases links_ok.mp h with ⟨-, rfl, habsent⟩ | ⟨_, _, _, _, _, heq, -⟩
    · exact ⟨[], rfl, fun hJ => links_ok.mpr (.inl ⟨rfl, rfl, hrule.absent hJ habsent⟩)⟩
    · cases heq
  | cons link found ih =>
    rcases links_ok.mp h with ⟨heq, -⟩ | ⟨separator, middle, value, after, more, heq, hseparator,
      hvalue, hmore⟩
    · cases heq
    · cases heq
      obtain ⟨used, rfl, hread⟩ := hrule.takes hseparator
      obtain ⟨used', rfl, hread'⟩ := hitem.takes hvalue
      obtain ⟨used'', rfl, hread''⟩ := ih hmore
      refine ⟨used ++ (used' ++ used''), by simp, fun hJ => ?_⟩
      have hafter := hJ.append used''
      rw [List.append_assoc, List.append_assoc]
      exact links_ok.mpr (.inr ⟨_, _, _, _, _, rfl, hread (hafter.append used'), hread' hafter,
        hread'' hJ⟩)

theorem chain {separator : Rule σ β} {missing : β → Cause} (hseparator : separator.Predictive) :
    (rule.chain separator missing).Predictive :=
  hrule.andThen fun _ => .bind (hseparator.links hrule.toEnds) fun _ => .pure _

theorem commaList {kind : Listed} : (rule.commaList kind).Predictive :=
  (hrule.chain predictive_token).map

end Predictive

end Rule

/-! ## The grammar -/

namespace Grammar

/-- A dot behind a name tells that there is more. -/
theorem predictive_qualified {missing : Cause} : (qualified missing : Rule σ _).Predictive := by
  refine Rule.predictive_token.andThen fun _ => .bind Rule.predictive_token.optional fun dot => ?_
  cases dot with
  | none => exact .pure _
  | some _ => exact .bind Rule.predictive_token.toEnds.require fun _ => .pure _

theorem predictive_tableRef : (tableRef : Rule σ _).Predictive := predictive_qualified.map

theorem predictive_columnRef : (columnRef : Rule σ _).Predictive := predictive_qualified.map

theorem predictive_negation {inner : Rule σ (Operand (Span σ))} (h : inner.Ends) :
    (negation inner).Predictive :=
  Rule.predictive_token.andThen fun _ => .bind h.requireOr fun _ => .pure _

/-- A call ends with its closing parenthesis. -/
theorem ends_call {argument : Rule σ (Expr (Span σ))} (h : argument.Predictive) :
    (call argument).Ends := by
  refine (Rule.predictive_token.toEnds.both Rule.predictive_token.toEnds).andThen fun ⟨_, _⟩ => ?_
  exact .bind h.commaList.optional fun _ =>
    .bind Rule.predictive_token.toEnds.require fun _ => .pure _

/-- Behind the first token, the next one tells that there is no call. -/
theorem call_absent_behind {argument : Rule σ (Expr (Span σ))} {used rest J : Input σ}
    (hused : used ≠ []) (hJ : SameNext rest J)
    (h : (call argument).read (used ++ rest) = .absent) :
    (call argument).read (used ++ J) = .absent := by
  obtain ⟨⟨kind, m⟩, more, rfl⟩ := List.exists_cons_of_ne_nil hused
  by_cases hname : ∃ text, kind = .name text
  · obtain ⟨text, rfl⟩ := hname
    have hnext := hJ.append more
    rw [List.cons_append, call_absent_of_name] at h ⊢
    rwa [hnext]
  · rw [call, Rule.andThen_absent, Rule.both_absent]
    left
    simpa using hname

/-- By induction on the limit. A name is a column or begins a call, as the next token tells. -/
theorem predictive_operand (d : Nat) : (operand d : Rule σ _).Predictive := by
  induction d with
  | zero => exact ⟨⟨fun h => (Rule.refuse_ne_matched h).elim⟩, fun _ h =>
      (Rule.refuse_ne_absent h).elim⟩
  | succ d ih =>
    refine ⟨⟨fun {I x rest} h => ?_⟩, fun hJ h => ?_⟩
    · have hshorter := (operand (d + 1)).shrinks h
      have hnegation : (negation (operand d) : Rule σ _).Predictive := predictive_negation ih.toEnds
      have hexpression : (expressionOf (operand d) : Rule σ _).Predictive :=
        (ih.chain Rule.predictive_token).map
      have hcolumn : (column : Rule σ _).Predictive := predictive_columnRef.map
      have hliteral : (literal : Rule σ _).Predictive := Rule.predictive_token.map
      simp only [operand, Rule.read_delay, Rule.orElse_matched] at h ⊢
      rcases h with h | ⟨habsent, h | ⟨hcall, h⟩⟩
      · obtain ⟨used, rfl, hread⟩ := hnegation.takes h
        exact ⟨used, rfl, fun hJ => .inl (hread hJ)⟩
      · obtain ⟨used, rfl, hread⟩ := (ends_call hexpression).takes h
        exact ⟨used, rfl, fun hJ =>
          .inr ⟨hnegation.absent (hJ.append used) habsent, .inl (hread hJ)⟩⟩
      · rw [← Rule.orElse_matched] at h
        obtain ⟨used, rfl, hread⟩ := (hcolumn.orElse hliteral).takes h
        have hused : used ≠ [] := by
          rintro rfl
          exact Nat.lt_irrefl _ hshorter
        exact ⟨used, rfl, fun hJ => .inr ⟨hnegation.absent (hJ.append used) habsent,
          .inr ⟨call_absent_behind hused hJ hcall, Rule.orElse_matched.mp (hread hJ)⟩⟩⟩
    · rw [operand_absent] at h ⊢
      exact ⟨h.1, hJ.stops h.2⟩

theorem predictive_expression (d : Nat) : (expression d : Rule σ _).Predictive :=
  ((predictive_operand d).chain Rule.predictive_token).map

theorem predictive_fromClause : (fromClause : Rule σ _).Predictive :=
  Rule.predictive_token.andThen fun _ =>
    .bind predictive_tableRef.commaList.toEnds.require fun ⟨_, _⟩ => .pure _

theorem predictive_whereClause (d : Nat) : (whereClause d : Rule σ _).Predictive :=
  Rule.predictive_token.andThen fun _ =>
    .bind (predictive_expression d).toEnds.require fun _ => .pure _

/-- That ORDER BY is absent takes two tokens to see, and so there is no more to say of it. -/
theorem ends_orderClause : (orderClause : Rule σ _).Ends :=
  (Rule.predictive_token.toEnds.both Rule.predictive_token.toEnds).andThen fun ⟨_, _⟩ =>
    .bind predictive_columnRef.commaList.toEnds.require fun ⟨_, _⟩ => .pure _

theorem predictive_useStatement : (useStatement : Rule σ _).Predictive :=
  Rule.predictive_token.andThen fun _ => .bind .peek fun _ =>
    .bind Rule.predictive_token.toEnds.require fun _ => .pure _

theorem predictive_insertStatement (d : Nat) : (insertStatement d : Rule σ _).Predictive :=
  Rule.predictive_token.andThen fun _ =>
    .bind Rule.predictive_token.toEnds.require fun _ =>
    .bind predictive_tableRef.toEnds.require fun _ =>
    .bind Rule.predictive_token.toEnds.require fun _ =>
    .bind predictive_columnRef.commaList.toEnds.require fun ⟨_, _⟩ =>
    .bind Rule.predictive_token.toEnds.require fun _ =>
    .bind Rule.predictive_token.toEnds.require fun _ =>
    .bind Rule.predictive_token.toEnds.require fun _ =>
    .bind (predictive_expression d).commaList.toEnds.require fun ⟨_, _⟩ =>
    .bind Rule.predictive_token.toEnds.require fun _ => .pure _

/-- Without an ORDER BY among them, clauses end where none begins. -/
theorem clauses_ends {d : Nat} {I rest : Input σ} {c} (h : (clauses d).read I = .ok (c, rest)) :
    ∃ used, I = used ++ rest ∧ (c.order = none → orderClause.read rest = .absent) ∧
      ∀ {J}, SameNext rest J → (c.order = none → orderClause.read J = .absent) →
        (clauses d).read (used ++ J) = .ok (c, J) := by
  simp only [clauses, Step.bind_ok, Step.pure_ok] at h ⊢
  obtain ⟨tables, _, hfrom, filter, _, hwhere, order, _, horder, rfl, rfl⟩ := h
  obtain ⟨I, rfl, hreadFrom⟩ := predictive_fromClause.optional.takes hfrom
  obtain ⟨K, rfl, hreadWhere⟩ := (predictive_whereClause d).optional.takes hwhere
  rcases Rule.optional_ok.mp horder with ⟨rfl, rfl, habsent⟩ | ⟨o, rfl, ho⟩
  · refine ⟨I ++ K, by simp, fun _ => habsent, fun {J} hJ hnone => ?_⟩
    rw [List.append_assoc]
    exact ⟨tables, K ++ J, hreadFrom (hJ.append K), filter, J, hreadWhere hJ, none, J,
      Rule.optional_ok.mpr (.inl ⟨rfl, rfl, hnone rfl⟩), rfl, rfl⟩
  · obtain ⟨L, rfl, hreadOrder⟩ := ends_orderClause.takes ho
    refine ⟨I ++ (K ++ L), by simp, by simp, fun {J} hJ _ => ?_⟩
    have hbehind := hJ.append L
    rw [List.append_assoc, List.append_assoc]
    exact ⟨tables, _, hreadFrom (hbehind.append K), filter, _, hreadWhere hbehind, some o, J,
      Rule.optional_ok.mpr (.inr ⟨o, rfl, hreadOrder hJ⟩), rfl, rfl⟩

end Grammar

end SqlScript

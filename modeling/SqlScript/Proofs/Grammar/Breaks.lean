import SqlScript.Proofs.Grammar.Blame
import SqlScript.Proofs.Grammar.Proper

/-!
# Where expressions break off

What a rule up to expressions has taken when it fails is the start of its construct, within the
depth limit (`localizes_expression`). Whole phrases end with a token that cannot dangle.
-/

namespace SqlScript.Grammar

variable {σ α : Type}

/-! ## Phrases end solidly -/

/-- Names end with a name. -/
theorem QualifiedPhrase.solid {I : Input σ} {q} (h : QualifiedPhrase I q) : Solid I := by
  cases h <;> exact ⟨_, rfl, by simp, by simp⟩

/-- A list ends as its last item does. -/
theorem CommaPhrase.solid {phrase : Input σ → α → Prop} {I : Input σ} {xs}
    (h : CommaPhrase phrase I xs) (hphrase : ∀ {J x}, phrase J x → Solid J) : Solid I := by
  induction h with
  | single first => exact hphrase first
  | cons first more ih =>
    rw [List.append_cons]
    exact ih.behind _

/-- NOT comes before an operand, so none ends with it. -/
theorem OperandPhrase.solid {I : Input σ} {x} (h : OperandPhrase I x) : Solid I := by
  cases h with
  | not value _ => exact value.solid.behind [_]
  | call => exact ⟨_, rfl, by simp, by simp⟩
  | @callWith f m₁ m₂ I m₃ args arguments =>
    exact .token ((.name f, m₁) :: (.symbol "(", m₂) :: I) (by simp) (by simp)
  | column h => exact QualifiedPhrase.solid h
  | literal hkind =>
    refine ⟨_, rfl, (literalOf_some hkind).1, ?_⟩
    rintro rfl
    simp [literalOf] at hkind

/-- A chain ends with an operand. -/
theorem ChainPhrase.solid {I : Input σ} {x links} (h : ChainPhrase I x links) : Solid I := by
  cases h with
  | single first => exact first.solid
  | link first _ more =>
    rw [List.append_cons]
    exact more.solid.behind _

theorem ExpressionPhrase.solid {I : Input σ} {e} (h : ExpressionPhrase I e) : Solid I := by
  cases h with
  | intro chain _ _ _ => exact chain.solid

/-! ## Names and lists -/

/-- The token that was taken for a name. -/
theorem name_used {used rest : Input σ} {x}
    (h : Rule.name.read (used ++ rest) = .matched x rest) : ∃ m, used = [(.name x.node, m)] := by
  obtain ⟨m, heq, -⟩ := Rule.name_matched.mp h
  exact ⟨m, List.append_cancel_right heq⟩

/-- Behind a dot there can always be a name. -/
theorem blames_qualified {missing : Cause} :
    (qualified missing : Rule σ _).Blames (Viable QualifiedPhrase) := by
  refine Rule.Blames.token.andThen Rule.predictive_token.toEnds fun {first used rest} hfirst => ?_
  obtain ⟨m, rfl⟩ := name_used hfirst
  refine .bind .token_optional Rule.predictive_token.optional fun {dot used rest} hdot => ?_
  cases dot with
  | none => exact .pure _
  | some dot =>
    rcases Rule.optional_ok.mp hdot with ⟨hnone, -⟩ | ⟨_, -, hdot⟩
    · cases hnone
    · obtain ⟨m', rfl⟩ := Rule.exactly_used hdot
      exact (Step.Blames.token ⟨[(.name "", m)], _, .dotted⟩
        (.token [_] (by simp) (by simp))).last fun _ => ⟨_, rfl⟩

theorem localizes_tableRef :
    (tableRef : Rule σ _).Localizes TablePhrase Kind.continuesName where
  toPredictive := predictive_tableRef
  reads := reads_tableRef
  blames := (blames_qualified.mono fun ⟨more, q, h⟩ => ⟨more, ⟨q.span, ⟨_, _⟩⟩, h⟩).map

theorem localizes_columnRef :
    (columnRef : Rule σ _).Localizes ColumnPhrase Kind.continuesName where
  toPredictive := predictive_columnRef
  reads := reads_columnRef
  blames := (blames_qualified.mono fun ⟨more, q, h⟩ => ⟨more, ⟨q.span, ⟨_, _⟩⟩, h⟩).map

/-- Where nothing has been taken yet, any name would do. -/
theorem viable_table (m : σ) : Viable TablePhrase ([] : Input σ) :=
  ⟨[(.name "", m)], ⟨.single m, ⟨none, ""⟩⟩, .plain⟩

theorem viable_column (m : σ) : Viable ColumnPhrase ([] : Input σ) :=
  ⟨[(.name "", m)], ⟨.single m, ⟨none, ""⟩⟩, .plain⟩

/-- Lists go on behind a comma. -/
theorem CommaPhrase.append {phrase : Input σ → α → Prop} {I J : Input σ} {xs ys} {m : σ}
    (h : CommaPhrase phrase I xs) (h' : CommaPhrase phrase J ys) :
    CommaPhrase phrase (I ++ (.symbol ",", m) :: J) (xs ++ ys) := by
  induction h with
  | single first => exact .cons first h'
  | cons first more ih =>
    rw [List.append_assoc, List.cons_append]
    exact .cons first ih

/-- A list as it is read, with its first item apart. -/
def ListPhrase (phrase : Input σ → α → Prop) (I : Input σ) (xs : α × List α) : Prop :=
  CommaPhrase phrase I (xs.1 :: xs.2)

/-- A list with its first item told apart. -/
theorem CommaPhrase.list {phrase : Input σ → α → Prop} {I : Input σ} {xs}
    (h : CommaPhrase phrase I xs) : Viable (ListPhrase phrase) I := by
  obtain ⟨first, more, rfl⟩ := h.exists_cons
  exact .of_phrase (x := (first, more)) h

/-- A list begins where an item does. -/
theorem viable_list {phrase : Input σ → α → Prop} {I : Input σ} (h : Viable phrase I) :
    Viable (ListPhrase phrase) I :=
  h.mono fun hx => CommaPhrase.list (.single hx)

/-- Items with commas between them, as a chain. -/
theorem chained_commas {phrase : Input σ → α → Prop} :
    Chained (fun k => if k = .symbol "," then some () else none) phrase
      (fun I => ∃ xs, CommaPhrase phrase I xs) (ListPhrase phrase) where
  solid := by
    intro kind o hkind
    obtain ⟨rfl, -⟩ := Option.ite_none_right_eq_some.mp hkind
    simp
  single hx := ⟨_, .single hx⟩
  link := by
    rintro I kind m o J x ⟨xs, hI⟩ hkind hx
    obtain ⟨rfl, -⟩ := Option.ite_none_right_eq_some.mp hkind
    exact ⟨_, hI.append (.single hx)⟩
  viable := fun ⟨_, hI⟩ => hI.list

/-- A list breaks off where an item does or where one is missing behind a comma. -/
theorem localizes_commaList {item : Rule σ α} {phrase : Input σ → α → Prop}
    {continues : Kind → Bool} {kind : Listed} (hitem : item.Localizes phrase continues)
    (hempty : ∀ {rest}, item.read rest = .absent → σ → Viable phrase [])
    (hcomma : continues (.symbol ",") = false) :
    (item.commaList kind).Localizes (ListPhrase phrase) (Kind.continuesList continues) where
  toPredictive := hitem.commaList
  reads := reads_commaList hitem.reads hcomma kind
  blames := (chained_commas.blames hitem hempty).map

theorem localizes_tables : (tableRef.commaList .table : Rule σ _).Localizes
    (ListPhrase TablePhrase) (Kind.continuesList Kind.continuesName) :=
  localizes_commaList localizes_tableRef (fun _ => viable_table) (by decide)

theorem localizes_columns : (columnRef.commaList .column : Rule σ _).Localizes
    (ListPhrase ColumnPhrase) (Kind.continuesList Kind.continuesName) :=
  localizes_commaList localizes_columnRef (fun _ => viable_column) (by decide)

/-! ## Expressions -/

section Expression

variable {d : Nat}

/-- A chain of operands within a depth limit. -/
def ChainWithin (d : Nat) (I : Input σ) : Prop :=
  ∃ first links, ChainPhrase I first links ∧ first.need ≤ d ∧ ∀ l ∈ links, l.2.need ≤ d

/-- An operand is a chain without links. -/
theorem OperandWithin.chain {I : Input σ} {x} (h : OperandWithin d I x) : ChainWithin d I :=
  ⟨x, [], .single h.1, h.2, by simp⟩

/-- Chains go on behind an operator, with as much room as before. -/
theorem ChainWithin.append {I J : Input σ} {kind m o} (h : ChainWithin d I)
    (ho : Operator.ofKind? kind = some o) (h' : ChainWithin d J) :
    ChainWithin d (I ++ (kind, m) :: J) := by
  obtain ⟨first, links, hchain, hfirst, hlinks⟩ := h
  obtain ⟨first', links', hchain', hfirst', hlinks'⟩ := h'
  exact ⟨first, _, hchain.append ho hchain', hfirst,
    List.forall_mem_append.mpr ⟨hlinks, List.forall_mem_cons.mpr ⟨hfirst', hlinks'⟩⟩⟩

/-- Every chain is an expression: there is an arrangement for it. -/
theorem ChainWithin.expression {I : Input σ} (h : ChainWithin d I) :
    ∃ e, ExpressionWithin d I e := by
  obtain ⟨first, links, hchain, hneed⟩ := h
  obtain ⟨hnested, hinorder⟩ := Arrangement.stratify_nested first links
  exact ⟨_, .intro hchain hchain.spans hnested hinorder, (need_postfixed_le hinorder).mpr hneed⟩

/-- Where there was room to look for an operand, there could be one. -/
theorem viable_operand (hd : 1 ≤ d) (m : σ) : Viable (OperandWithin d) ([] : Input σ) :=
  ⟨[(.name "", m)], _, .column (c := ⟨.single m, none, ""⟩) .plain, hd⟩

/-- Where there was room to look for an expression, there could be one. -/
theorem viable_expression (hd : 1 ≤ d) (m : σ) : Viable (ExpressionWithin d) ([] : Input σ) := by
  obtain ⟨more, x, hx⟩ := viable_operand hd m
  obtain ⟨e, he⟩ := hx.chain.expression
  exact ⟨more, e, he⟩

/-- Operands with operators between them. -/
theorem chained_operands :
    Chained Operator.ofKind? (OperandWithin (σ := σ) d) (ChainWithin d) (ExpressionWithin d) where
  solid := by
    intro kind o ho
    constructor <;>
    · rintro rfl
      cases ho
  single := OperandWithin.chain
  link hI ho hx := hI.append ho hx.chain
  viable hI := by
    obtain ⟨e, he⟩ := hI.expression
    exact .of_phrase he

/-- Behind NOT there is one operand more. -/
theorem viable_not {I : Input σ} (m : σ) (h : Viable (OperandWithin d) I) :
    Viable (OperandWithin (d + 1)) ((.keyword "NOT", m) :: I) := by
  refine h.cons fun ⟨hx, hneed⟩ => ?_
  exact .of_phrase ⟨.not hx (.cons _ _ hx.spans), Nat.succ_le_succ hneed⟩

/-- The arguments of a call have room for one operand less than the call. -/
theorem call_within (f : String) (m₁ m₂ m₃ : σ) {I : Input σ} {args}
    (h : CommaPhrase (ExpressionWithin d) I args) :
    OperandWithin (d + 1) ((.name f, m₁) :: (.symbol "(", m₂) :: (I ++ [(.symbol ")", m₃)]))
      (.call ⟨m₁, m₃⟩ f args) := by
  obtain ⟨hargs, hneed⟩ := commaPhrase_within.mp h
  have hone := arguments_one_le_need hargs
  refine ⟨.callWith hargs, ?_⟩
  simp only [Operand.need]
  omega

/-- What begins a list of arguments begins a call, behind its name. -/
theorem viable_call (f : String) (m₁ m₂ : σ) {I : Input σ}
    (h : Viable (ListPhrase (ExpressionWithin d)) I) :
    Viable (OperandWithin (d + 1)) ((.name f, m₁) :: (.symbol "(", m₂) :: I) := by
  obtain ⟨more, args, hargs⟩ := h
  exact (Viable.of_phrase (call_within f m₁ m₂ m₂ hargs)).of_isPrefix (by simp)

/-! Operands, expressions and lists of these, if the operands inside are as they should be. -/

section Inner

variable (h : (operand d : Rule σ _).Blames (Viable (OperandWithin d)))
include h

/-- An operand, and where it breaks off. -/
theorem localizes_operand_of :
    (operand d : Rule σ _).Localizes (OperandWithin d) Kind.continuesOperand :=
  ⟨predictive_operand d, reads_operand d, h⟩

/-- An expression breaks off in an operand or where one is missing behind an operator. -/
theorem localizes_expression_of :
    (expression d : Rule σ _).Localizes (ExpressionWithin d) Kind.continuesExpression where
  toPredictive := predictive_expression d
  reads := reads_expression d
  blames := (chained_operands.blames (localizes_operand_of h) fun habsent =>
    viable_operand (operand_absent.mp habsent).1).map

theorem localizes_expressions_of : ((expression d).commaList .expression : Rule σ _).Localizes
    (ListPhrase (ExpressionWithin d)) (Kind.continuesList Kind.continuesExpression) :=
  localizes_commaList (localizes_expression_of h)
    (fun habsent => viable_expression (expression_absent.mp habsent).1) (by decide)

/-- NOT is blamed itself if no operand follows. -/
theorem blames_negation :
    (negation (operand d) : Rule σ _).Blames (Viable (OperandWithin (d + 1))) := by
  refine .andThen_exactly fun key m hkey => .last ⟨fun {I f} herror hcause => ?_⟩ fun _ => ⟨_, rfl⟩
  rcases Rule.requireOr_error.mp herror with hread | ⟨habsent, rfl⟩
  · obtain ⟨used, rest, rfl, hused, hpoints, hfails⟩ := h.breaks hread hcause
    exact ⟨used, rest, rfl, viable_not m hused, hpoints.behind [_], fun hJ =>
      Rule.requireOr_error.mpr (.inl (hfails hJ))⟩
  · -- the failure is at NOT, which dangles
    obtain ⟨hd, hstop⟩ := operand_absent.mp habsent
    refine ⟨[], I, rfl, viable_not m (viable_operand hd m), ⟨_, rfl, .inl ⟨.inl ⟨rfl, ?_⟩, ?_⟩⟩,
      fun hJ => Rule.requireOr_error.mpr (.inr ⟨(predictive_operand d).absent hJ habsent, rfl⟩)⟩
    · simpa [Stops] using hstop
    · rw [hkey]
      rfl

/-- A call breaks off in its arguments or where there is no closing parenthesis. -/
theorem blames_call :
    (call (expression d) : Rule σ _).Blames (Viable (OperandWithin (d + 1))) := by
  refine .andThen_both fun ⟨_, _⟩ {k₁ m₁ k₂ m₂} hname hopen => ?_
  obtain ⟨f, rfl⟩ : ∃ f, k₁ = .name f := by
    split at hname
    · exact ⟨_, rfl⟩
    · cases hname
  obtain ⟨rfl, -⟩ := Option.ite_none_right_eq_some.mp hopen
  refine .bind_optional (localizes_expressions_of h) (viable_call f m₁ m₂)
    fun {found I} hargs hroom => ?_
  have hclose : ∀ {before : Input σ}, Viable (OperandWithin (d + 1)) before → Solid before →
      ((Rule.symbol ")" : Rule σ _).require .closing).Blames before
        (Viable (OperandWithin (d + 1))) := fun hbefore hsolid => .token hbefore hsolid
  cases hargs with
  | absent =>
    obtain ⟨rest, habsent⟩ := hroom rfl
    have hd := (expression_absent.mp (Rule.commaList_absent.mp habsent)).1
    have hphrase : OperandWithin (d + 1) [(.name f, m₁), (.symbol "(", m₂), (.symbol ")", m₂)]
        (.call ⟨m₁, m₂⟩ f []) := by
      refine ⟨.call, ?_⟩
      simp only [Operand.need, Expr.needAll]
      omega
    exact (hclose ((Viable.of_phrase hphrase).of_isPrefix (by simp))
      ⟨_, rfl, by simp, by simp⟩).last fun _ => ⟨_, rfl⟩
  | present hargs =>
    exact (hclose (viable_call f m₁ m₂ (.of_phrase hargs))
      ((hargs.solid fun hx => hx.1.solid).behind [_, _])).last fun _ => ⟨_, rfl⟩

end Inner

/-- By induction on the limit. At its end operands are too deep, which is no matter here. -/
theorem blames_operand (d : Nat) : (operand d : Rule σ _).Blames (Viable (OperandWithin d)) := by
  induction d with
  | zero =>
    refine ⟨fun hread hcause => ?_⟩
    cases hread
    exact (hcause rfl).elim
  | succ d ih =>
    have hcolumn : (column : Rule σ _).Blames (Viable (OperandWithin (d + 1))) :=
      (localizes_columnRef.blames.mono fun hI => hI.mono fun h =>
        .of_phrase ⟨.column h, by simp [Operand.need]⟩).map
    have hliteral : (literal : Rule σ _).Blames (Viable (OperandWithin (d + 1))) :=
      Rule.Blames.token.map
    have hnegation : (negation (operand d) : Rule σ _).Predictive :=
      predictive_negation (predictive_operand d).toEnds
    have hpredictive : (column : Rule σ _).Predictive := predictive_columnRef.map
    exact (blames_negation ih).orElse (fun _ hJ => hnegation.absent (hJ.append _))
      ((blames_call ih).orElse call_absent_behind
        (hcolumn.orElse (fun _ hJ => hpredictive.absent (hJ.append _)) hliteral))

theorem localizes_expression (d : Nat) :
    (expression d : Rule σ _).Localizes (ExpressionWithin d) Kind.continuesExpression :=
  localizes_expression_of (blames_operand d)

theorem localizes_expressions (d : Nat) :
    ((expression d).commaList .expression : Rule σ _).Localizes
      (ListPhrase (ExpressionWithin d)) (Kind.continuesList Kind.continuesExpression) :=
  localizes_expressions_of (blames_operand d)

end Expression

end SqlScript.Grammar

import SqlScript.Proofs.Grammar.Breaks

/-!
# Where statements break off

What a rule has taken when it fails is the start of its construct, within the depth limit
(`blames_statement`), or an ORDER BY directly behind DELETE, which is read but begins no statement.
A statement that has no ORDER BY where there could be one may go on with ORDER, but it is read up to
there unless BY follows too (`statement_ends`).
-/

namespace SqlScript.Grammar

variable {σ α : Type}

/-! ## Phrases end solidly -/

theorem OptionalPhrase.solid_behind {phrase : Input σ → α → Prop} {I J : Input σ} {found}
    (h : OptionalPhrase phrase J found) (hphrase : ∀ {K x}, phrase K x → Solid K)
    (hI : Solid I) : Solid (I ++ J) := by
  cases h with
  | absent => rwa [List.append_nil]
  | present h => exact (hphrase h).behind I

/-- Something that clauses follow. -/
theorem ClausesPhrase.solid_behind {I J : Input σ} {c} (h : ClausesPhrase J c) (hI : Solid I) :
    Solid (I ++ J) := by
  cases h with
  | @intro K L M _ _ _ hfrom hwhere horder =>
    rw [← List.append_assoc, ← List.append_assoc]
    refine horder.solid_behind (fun h => ?_) (hwhere.solid_behind (fun h => ?_)
      (hfrom.solid_behind (fun h => ?_) hI))
    · cases h with
      | intro list _ => exact (list.solid QualifiedPhrase.solid).behind [_, _]
    · cases h with
      | intro expression _ => exact expression.solid.behind [_]
    · cases h with
      | intro list _ => exact (list.solid QualifiedPhrase.solid).behind [_]

theorem StatementPhrase.solid {I : Input σ} {s} (h : StatementPhrase I s) : Solid I := by
  have hkey : ∀ {word : String} {m : σ}, word ∈ ["SELECT", "DELETE"] →
      Solid [(Kind.keyword word, m)] := fun hword =>
    ⟨_, rfl, by rintro ⟨⟩; simp at hword, by rintro ⟨⟩; simp at hword⟩
  cases h with
  | use => exact ⟨_, rfl, by simp, by simp⟩
  | bareSelect => exact hkey (by simp)
  | select list clauses _ _ _ =>
    exact clauses.solid_behind ((list.solid ExpressionPhrase.solid).behind [_])
  | selectList list clauses _ _ =>
    exact clauses.solid_behind ((list.solid ExpressionPhrase.solid).behind [_])
  | @insert m₁ m₂ I m₃ J m₄ m₅ m₆ K m₇ _ _ _ _ _ _ =>
    have hlast : Solid [(Kind.symbol ")", m₇)] := .token [] (by simp) (by simp)
    simpa using hlast.behind ((.keyword "INSERT", m₁) :: (.keyword "INTO", m₂) ::
      (I ++ (.symbol "(", m₃) :: (J ++ (.symbol ")", m₄) :: (.keyword "VALUES", m₅) ::
        (.symbol "(", m₆) :: K)))
  | delete clauses _ _ _ => exact clauses.solid_behind (hkey (by simp))

/-! ## Clauses -/

/-- Clauses that count, within a depth limit. -/
def SelectiveWithin (d : Nat) (I : Input σ) (c : Clauses (Span σ)) : Prop :=
  ClausesPhrase I c ∧ Selective c ∧ c.need ≤ d

/-- The start of an ORDER BY, with both words. -/
def OrderStart (I : Input σ) : Prop :=
  Viable OrderPhrase I ∧
    ∃ m₁ m₂ more, I = (.keyword "ORDER", m₁) :: (.keyword "BY", m₂) :: more

variable {d : Nat}

theorem localizes_fromClause :
    (fromClause : Rule σ _).Localizes FromPhrase (Kind.continuesList Kind.continuesName) where
  toPredictive := predictive_fromClause
  reads := reads_fromClause
  blames := by
    refine .andThen_exactly fun key m _ => ?_
    have hinside : ∀ {I tables}, ListPhrase TablePhrase I tables →
        Viable FromPhrase ([(.keyword "FROM", m)] ++ I) := fun h =>
      .of_phrase (.intro h (.cons _ _ (h.spans TablePhrase.spans)))
    exact .bind_require localizes_tables (fun hI => hI.within hinside)
      (.token [] (by simp) (by simp)) (fun _ m => viable_list (viable_table m)) fun _ => .pure _

theorem viable_where {I : Input σ} (m : σ) (h : Viable (ExpressionWithin d) I) :
    Viable (fun I w => WherePhrase I w ∧ w.node.need ≤ d) ((.keyword "WHERE", m) :: I) :=
  h.cons fun ⟨hx, hneed⟩ =>
    .of_phrase ⟨.intro hx (.cons _ _ hx.spans), hneed⟩

/-- A WHERE behind what there is of FROM makes the clauses count. -/
theorem viable_selective {I J : Input σ} {tables} (hfrom : OptionalPhrase FromPhrase I tables)
    (hJ : Viable (fun I w => WherePhrase I w ∧ w.node.need ≤ d) J) :
    Viable (SelectiveWithin d) (I ++ J) :=
  hJ.within fun {K w} ⟨h, hneed⟩ => .of_phrase (x := ⟨tables, some w, none⟩)
    ⟨by simpa using ClausesPhrase.intro hfrom (.present h) .absent, .inr rfl, hneed⟩

theorem localizes_whereClause (d : Nat) : (whereClause d : Rule σ _).Localizes
    (fun I w => WherePhrase I w ∧ w.node.need ≤ d) Kind.continuesExpression where
  toPredictive := predictive_whereClause d
  reads := reads_whereClause d
  blames := by
    refine .andThen_exactly fun key m _ => ?_
    exact .bind_require (localizes_expression d) (viable_where m)
      (.token [] (by simp) (by simp))
      (fun habsent => viable_expression (expression_absent.mp habsent).1) fun _ => .pure _

theorem blames_orderClause : (orderClause : Rule σ _).Blames OrderStart := by
  refine .andThen_both fun ⟨_, _⟩ {k₁ m₁ k₂ m₂} horder hby => ?_
  obtain ⟨rfl, -⟩ := Option.ite_none_right_eq_some.mp horder
  obtain ⟨rfl, -⟩ := Option.ite_none_right_eq_some.mp hby
  have hinside : ∀ {I columns}, ListPhrase ColumnPhrase I columns →
      Viable OrderPhrase ([(.keyword "ORDER", m₁), (.keyword "BY", m₂)] ++ I) := fun h =>
    .of_phrase (.intro h ((Spans.single _ m₁).through (h.spans ColumnPhrase.spans) [_]))
  exact .bind_require localizes_columns (fun hI => ⟨hI.within hinside, _, _, _, rfl⟩)
    ⟨_, rfl, by simp, by simp⟩ (fun _ m => viable_list (viable_column m)) fun _ => .pure _

/-- What fails in clauses begins clauses that count, unless it is an ORDER BY alone. -/
theorem blames_clauses (d : Nat) : (clauses d : Step σ _).Blames []
    fun I => Viable (SelectiveWithin d) I ∨ OrderStart I := by
  have hfromStart : ∀ {I : Input σ}, Viable FromPhrase I → Viable (SelectiveWithin d) ([] ++ I) :=
    fun hI => hI.within fun {K x} h => .of_phrase (x := ⟨some x, none, none⟩)
      ⟨by simpa using ClausesPhrase.intro (.present h) .absent .absent, .inl rfl, Nat.zero_le d⟩
  refine .bind_optional localizes_fromClause (fun hI => .inl (hfromStart hI))
    fun {tables I} hfrom _ => ?_
  refine .bind_optional (localizes_whereClause d) (fun hJ => .inl (viable_selective hfrom hJ))
    fun {filter J} hwhere _ => .last (blames_orderClause.optional fun {K} hK => ?_)
      fun _ => ⟨_, rfl⟩
  have hwhere' : OptionalPhrase WherePhrase J filter ∧
      (filter.elim 0 fun condition => condition.node.need) ≤ d := by
    cases hwhere with
    | absent => exact ⟨.absent, Nat.zero_le d⟩
    | present h => exact ⟨.present h.1, h.2⟩
  by_cases hsel : tables.isSome ∨ filter.isSome
  · refine .inl (hK.1.within fun {K o} h => .of_phrase (x := ⟨tables, filter, some o⟩) ?_)
    have hphrase := ClausesPhrase.intro hfrom hwhere'.1 (.present h)
    exact ⟨by simpa using hphrase, hsel, hwhere'.2⟩
  · cases hfrom with
    | present h => simp at hsel
    | absent =>
      cases hwhere with
      | present h => simp at hsel
      | absent => exact .inr hK

/-- Behind clauses without an ORDER BY one could follow. -/
theorem ClausesPhrase.ordered {I : Input σ} {c} (h : ClausesPhrase I c) (hnone : c.order = none)
    (m : σ) : ∃ o, ClausesPhrase (I ++ [(.keyword "ORDER", m), (.keyword "BY", m), (.name "", m)])
      { c with order := some o } := by
  cases h with
  | intro hfrom hwhere horder =>
    cases horder with
    | present h => cases hnone
    | absent =>
      have hname : CommaPhrase ColumnPhrase [(.name "", m)] [⟨.single m, ⟨none, ""⟩⟩] :=
        .single .plain
      have hphrase : OrderPhrase [(.keyword "ORDER", m), (.keyword "BY", m), (.name "", m)]
          ⟨⟨m, m⟩, _⟩ := .intro hname ⟨rfl, rfl⟩
      exact ⟨_, by simpa using ClausesPhrase.intro hfrom hwhere (.present hphrase)⟩

/-! ## Statements -/

def StatementWithin (d : Nat) (I : Input σ) (s : Statement (Span σ)) : Prop :=
  StatementPhrase I s ∧ s.need ≤ d

theorem select_within {I J : Input σ} {list c} (m : σ)
    (hlist : CommaPhrase (ExpressionWithin d) I list) (hc : ClausesPhrase J c)
    (hneed : c.need ≤ d) : ∃ s, StatementWithin d ((.keyword "SELECT", m) :: (I ++ J)) s := by
  obtain ⟨hlist, hlistNeed⟩ := commaPhrase_within.mp hlist
  have hone := arguments_one_le_need hlist
  obtain ⟨first, more, rfl⟩ := hlist.exists_cons
  have hspan := hc.spans_behind ((Spans.single (.keyword "SELECT") m).append
    (hlist.spans ExpressionPhrase.spans))
  by_cases hsel : Selective c
  · obtain ⟨inner, hinner, -⟩ := hc.kept?_of_selective hsel
    refine ⟨_, .select hlist hc hsel hspan hinner, ?_⟩
    simp only [Statement.need, Option.elim_some]
    omega
  · refine ⟨_, .selectList hlist hc hsel hspan, ?_⟩
    simp only [Statement.need, Option.elim_none]
    omega

theorem delete_within {I : Input σ} {c} (m : σ) (h : SelectiveWithin d I c) :
    ∃ s, StatementWithin d ((.keyword "DELETE", m) :: I) s := by
  obtain ⟨hc, hsel, hneed⟩ := h
  obtain ⟨inner, hinner, -⟩ := hc.kept?_of_selective hsel
  exact ⟨_, .delete hc hsel (.cons _ _ hinner) hinner, hneed⟩

theorem viable_insert {I J K : Input σ} {table columns} (m₁ m₂ m₃ m₄ m₅ m₆ : σ)
    (hinto : TablePhrase I table) (hcolumns : CommaPhrase ColumnPhrase J columns)
    (hvalues : Viable (ListPhrase (ExpressionWithin d)) K) :
    Viable (StatementWithin d)
      ((.keyword "INSERT", m₁) :: (.keyword "INTO", m₂) :: (I ++ (.symbol "(", m₃) :: (J ++
        (.symbol ")", m₄) :: (.keyword "VALUES", m₅) :: (.symbol "(", m₆) :: K))) := by
  obtain ⟨more, values, hvalues⟩ := hvalues
  obtain ⟨hvalues, hneed⟩ := commaPhrase_within.mp hvalues
  have hphrase := @StatementPhrase.insert σ m₁ m₂ I m₃ J m₄ m₅ m₆ (K ++ more) m₁ _ _ _
    hinto hcolumns hvalues
  exact ⟨more ++ [(.symbol ")", m₁)], .insert ⟨m₁, m₁⟩ table columns (values.1 :: values.2),
    by simpa using hphrase, hneed⟩

theorem viable_select {I : Input σ} (m : σ) (h : Viable (ListPhrase (ExpressionWithin d)) I) :
    Viable (StatementWithin d) ((.keyword "SELECT", m) :: I) := by
  refine h.cons fun hlist => ?_
  obtain ⟨s, hs⟩ := select_within m hlist (.intro .absent .absent .absent) (Nat.zero_le d)
  exact (Viable.of_phrase hs).of_isPrefix (by simp)

/-- The start of a DELETE with an ORDER BY directly behind it, which is none. -/
def StrayOrder (I : Input σ) : Prop :=
  ∃ m₁ m₂ m₃ more,
    I = (.keyword "DELETE", m₁) :: (.keyword "ORDER", m₂) :: (.keyword "BY", m₃) :: more

theorem blames_useStatement : (useStatement : Rule σ _).Blames (Viable (StatementWithin d)) := by
  refine .andThen_exactly fun key m _ => .bind .peek .peek fun {_ used rest} hread => ?_
  obtain rfl : used = [] := List.append_cancel_right (Step.peek_ok.mp hread).2
  have hphrase : StatementWithin d [(.keyword "USE", m), (.name "", m)] (.use ⟨m, m⟩ "") :=
    ⟨.use, Nat.zero_le d⟩
  exact (Step.Blames.token ⟨[(.name "", m)], _, hphrase⟩
    (.token [] (by simp) (by simp))).last fun _ => ⟨_, rfl⟩

theorem blames_selectStatement (d : Nat) :
    (selectStatement d : Rule σ _).Blames (Viable (StatementWithin d)) := by
  refine .andThen_exactly fun key m _ => ?_
  refine .bind_optional (localizes_expressions d) (viable_select m)
    fun {found I} hfound _ => ?_
  cases hfound with
  | absent => exact .pure _
  | present hexpressions =>
    refine ((blames_clauses d).behind fun hJ => ?_).last fun _ => ⟨_, rfl⟩
    rcases hJ with hJ | ⟨hJ, -⟩
    · refine hJ.within fun ⟨hc, _, hneed⟩ => ?_
      obtain ⟨s, hs⟩ := select_within m hexpressions hc hneed
      exact .of_phrase hs
    · refine hJ.within fun h => ?_
      obtain ⟨s, hs⟩ := select_within m hexpressions (.intro .absent .absent (.present h))
        (Nat.zero_le d)
      exact .of_phrase hs

/-- With room for an operand there is always a way to go on. -/
theorem blames_insertStatement (hd : 1 ≤ d) :
    (insertStatement d : Rule σ _).Blames (Viable (StatementWithin d)) := by
  refine .andThen_exactly fun key m₁ _ => ?_
  have hinto : TablePhrase [(.name "", m₁)] ⟨.single m₁, ⟨none, ""⟩⟩ := .plain
  have hcolumns : CommaPhrase ColumnPhrase [(.name "", m₁)] [⟨.single m₁, ⟨none, ""⟩⟩] :=
    .single .plain
  have hvalues : Viable (ListPhrase (ExpressionWithin d)) ([] : Input σ) :=
    viable_list (viable_expression hd m₁)
  refine .bind_exactly ((viable_insert m₁ m₁ m₁ m₁ m₁ m₁ hinto hcolumns hvalues).of_isPrefix
    (by simp)) (.token [] (by simp) (by simp)) fun _ m₂ => ?_
  refine .bind_require localizes_tableRef
    (fun hI => hI.within fun h =>
      (viable_insert m₁ m₂ m₁ m₁ m₁ m₁ h hcolumns hvalues).of_isPrefix (by simp))
    (.token _ (by simp) (by simp)) (fun _ => viable_table) fun {table I} hinto => ?_
  refine .bind_exactly ((viable_insert m₁ m₂ m₁ m₁ m₁ m₁ hinto hcolumns hvalues).of_isPrefix
    (by simp)) ((QualifiedPhrase.solid hinto).behind _) fun _ m₃ => ?_
  refine .bind_require localizes_columns
    (fun hJ => hJ.within fun h =>
      (viable_insert m₁ m₂ m₃ m₁ m₁ m₁ hinto h hvalues).of_isPrefix (by simp))
    (.token _ (by simp) (by simp)) (fun _ m => viable_list (viable_column m))
    fun {columns J} hcolumns => ?_
  refine .bind_exactly ((viable_insert m₁ m₂ m₃ m₁ m₁ m₁ hinto hcolumns hvalues).of_isPrefix
    (by simp)) ((hcolumns.solid QualifiedPhrase.solid).behind _) fun _ m₄ => ?_
  refine .bind_exactly ((viable_insert m₁ m₂ m₃ m₄ m₁ m₁ hinto hcolumns hvalues).of_isPrefix
    (by simp)) (.token _ (by simp) (by simp)) fun _ m₅ => ?_
  refine .bind_exactly ((viable_insert m₁ m₂ m₃ m₄ m₅ m₁ hinto hcolumns hvalues).of_isPrefix
    (by simp)) (.token _ (by simp) (by simp)) fun _ m₆ => ?_
  have hinside : ∀ {K : Input σ}, Viable (ListPhrase (ExpressionWithin d)) K →
      Viable (StatementWithin d) ([(.keyword "INSERT", m₁)] ++ [(.keyword "INTO", m₂)] ++ I ++
        [(.symbol "(", m₃)] ++ J ++ [(.symbol ")", m₄)] ++ [(.keyword "VALUES", m₅)] ++
        [(.symbol "(", m₆)] ++ K) := fun hK =>
    (viable_insert m₁ m₂ m₃ m₄ m₅ m₆ hinto hcolumns hK).of_isPrefix (by simp)
  refine .bind_require (localizes_expressions d) hinside (.token _ (by simp) (by simp))
    (fun _ _ => hvalues) fun {values K} hK => ?_
  exact (Step.Blames.token (hinside (.of_phrase hK)) ((hK.solid fun h => h.1.solid).behind _)).last
    fun _ => ⟨_, rfl⟩

theorem blames_deleteStatement (d : Nat) : (deleteStatement d : Rule σ _).Blames
    fun u => Viable (StatementWithin d) u ∨ StrayOrder u := by
  refine .andThen_exactly fun key m _ => .bind .peek .peek fun {_ used rest} hread => ?_
  obtain rfl : used = [] := List.append_cancel_right (Step.peek_ok.mp hread).2
  refine ((blames_clauses d).behind fun hu => ?_).last fun _ => ⟨_, rfl⟩
  rcases hu with hu | ⟨-, m₁, m₂, more, rfl⟩
  · refine .inl (hu.within fun h => ?_)
    obtain ⟨s, hs⟩ := delete_within m h
    exact .of_phrase hs
  · exact .inr ⟨m, m₁, m₂, more, rfl⟩

/-- What fails in a statement begins one, unless it is a stray ORDER BY. -/
theorem blames_statement (hd : 1 ≤ d) : (statement d : Rule σ _).Blames
    fun u => Viable (StatementWithin d) u ∨ StrayOrder u :=
  (blames_useStatement.mono .inl).orElse
    (fun _ hJ => Rule.predictive_token.absent_andThen (hJ.append _))
    (((blames_selectStatement d).mono .inl).orElse
      (fun _ hJ => Rule.predictive_token.absent_andThen (hJ.append _))
      (((blames_insertStatement hd).mono .inl).orElse
        (fun _ hJ => Rule.predictive_token.absent_andThen (hJ.append _))
        (blames_deleteStatement d)))

theorem statement_absent {I J : Input σ} (hJ : SameNext I J)
    (h : (statement d).read I = .absent) : (statement d).read J = .absent := by
  simp only [statement, Rule.orElse_absent] at h ⊢
  exact ⟨Rule.predictive_token.absent_andThen hJ h.1,
    Rule.predictive_token.absent_andThen hJ h.2.1,
    Rule.predictive_token.absent_andThen hJ h.2.2.1,
    Rule.predictive_token.absent_andThen hJ h.2.2.2⟩

/-! ## How statements end -/

/-- A statement is taken before all that begins like what follows it. If it is `unordered`, it may
go on with ORDER, so that is on condition that no ORDER BY follows. -/
structure StatementEnd (d : Nat) (used : Input σ) (draft : Draft σ) (rest : Input σ)
    (unordered : Prop) : Prop where
  absent : unordered → orderClause.read rest = .absent
  continued : unordered → ∀ m, Viable (StatementWithin d) (used ++ [(.keyword "ORDER", m)])
  taken : ∀ {J}, SameNext rest J → (unordered → orderClause.read J = .absent) →
    (statement d).read (used ++ J) = .matched draft J

section End

variable {I rest : Input σ} {draft : Draft σ}

theorem selectStatement_ends (hread : (selectStatement d).read I = .matched draft rest) :
    ∃ used unordered, I = used ++ rest ∧ StatementEnd d used draft rest unordered := by
  simp only [selectStatement, Rule.andThen_matched, Rule.keyword_matched, Step.bind_ok] at hread
  obtain ⟨key, _, ⟨m, rfl, hkey⟩, found, _, hlist, hread⟩ := hread
  obtain ⟨K, rfl, htakes⟩ := (predictive_expression d).commaList.optional.takes hlist
  cases found with
  | none =>
    obtain ⟨rfl, rfl⟩ := Step.pure_ok.mp hread
    refine ⟨(.keyword "SELECT", m) :: K, False, rfl, False.elim, False.elim, fun {J} hJ _ =>
      statement_of_select ?_⟩
    simp only [selectStatement, Rule.andThen_matched, Rule.keyword_matched, Step.bind_ok]
    exact ⟨key, K ++ J, ⟨m, rfl, hkey⟩, none, J, htakes hJ, rfl⟩
  | some list =>
    obtain ⟨first, more⟩ := list
    simp only [Step.bind_ok, Step.pure_ok] at hread
    obtain ⟨c, _, hclauses, rfl, rfl⟩ := hread
    rcases Rule.optional_ok.mp hlist with ⟨hnone, -⟩ | ⟨_, heq, hexpressions⟩
    · cases hnone
    cases heq
    have hphrase := (reads_commaList (reads_expression d) (by decide) .expression).used hexpressions
    obtain ⟨L, rfl, habsent, htakes'⟩ := clauses_ends hclauses
    obtain ⟨_, heq, hc, hneed⟩ := clauses_sound hclauses
    obtain rfl := List.append_cancel_right heq
    refine ⟨(.keyword "SELECT", m) :: (K ++ L), c.order = none, by simp, habsent,
      fun hnone m' => ?_, fun {J} hJ hunordered => ?_⟩
    · obtain ⟨o, ho⟩ := hc.ordered hnone m'
      obtain ⟨s, hs⟩ := select_within m hphrase ho hneed
      exact (Viable.of_phrase hs).of_isPrefix (by simp)
    · rw [List.cons_append, List.append_assoc]
      refine statement_of_select ?_
      simp only [selectStatement, Rule.andThen_matched, Rule.keyword_matched, Step.bind_ok]
      refine ⟨key, _, ⟨m, rfl, hkey⟩, some (first, more), _, htakes (hJ.append L), ?_⟩
      simp only [Step.bind_ok, Step.pure_ok]
      exact ⟨c, J, htakes' hJ hunordered, rfl, rfl⟩

theorem deleteStatement_ends {s} (hread : (deleteStatement d).read I = .matched draft rest)
    (hs : draft.statement = .ok s) :
    ∃ used unordered, I = used ++ rest ∧ StatementEnd d used draft rest unordered := by
  simp only [deleteStatement, Rule.andThen_matched, Rule.keyword_matched, Step.bind_ok,
    Step.peek_ok, Step.pure_ok] at hread
  obtain ⟨key, _, ⟨m, rfl, hkey⟩, _, _, ⟨rfl, rfl⟩, c, _, hclauses, rfl, rfl⟩ := hread
  have hsel : Selective c := by
    by_contra hsel
    simp [kept?_of_not_selective hsel] at hs
  obtain ⟨L, rfl, habsent, htakes⟩ := clauses_ends hclauses
  obtain ⟨_, heq, hc, hneed⟩ := clauses_sound hclauses
  obtain rfl := List.append_cancel_right heq
  refine ⟨(.keyword "DELETE", m) :: L, c.order = none, rfl, habsent, fun hnone m' => ?_,
    fun {J} hJ hunordered => ?_⟩
  · obtain ⟨o, ho⟩ := hc.ordered hnone m'
    obtain ⟨s, hs⟩ := delete_within m ⟨ho, hsel, hneed⟩
    exact (Viable.of_phrase hs).of_isPrefix (by simp)
  · refine statement_of_delete ?_
    simp only [deleteStatement, Rule.andThen_matched, Rule.keyword_matched, Step.bind_ok,
      Step.peek_ok, Step.pure_ok]
    -- what stood behind DELETE matters only without clauses that count
    obtain ⟨inner, -, hkept⟩ := hc.kept?_of_selective hsel
    exact ⟨key, _, ⟨m, rfl, hkey⟩, _, _, ⟨rfl, rfl⟩, c, J, htakes hJ hunordered,
      by simp only [hkept], rfl⟩

/-- Every statement that is read ends in this way. -/
theorem statement_ends {s} (hread : (statement d).read I = .matched draft rest)
    (hs : draft.statement = .ok s) :
    ∃ used unordered, I = used ++ rest ∧ StatementEnd d used draft rest unordered := by
  simp only [statement, Rule.orElse_matched] at hread
  rcases hread with hread | ⟨huse, hread | ⟨hselect, hread | ⟨-, hread⟩⟩⟩
  · obtain ⟨used, rfl, htakes⟩ := predictive_useStatement.takes hread
    refine ⟨used, False, rfl, nofun, nofun, fun hJ _ => ?_⟩
    simp only [statement, Rule.orElse_matched]
    exact .inl (htakes hJ)
  · exact selectStatement_ends hread
  · obtain ⟨used, rfl, htakes⟩ := (predictive_insertStatement d).takes hread
    refine ⟨used, False, rfl, nofun, nofun, fun hJ _ => ?_⟩
    have hnext := hJ.append used
    simp only [statement, Rule.orElse_matched]
    exact .inr ⟨Rule.predictive_token.absent_andThen hnext huse,
      .inr ⟨Rule.predictive_token.absent_andThen hnext hselect, .inl (htakes hJ)⟩⟩
  · exact deleteStatement_ends hread hs

end End

end SqlScript.Grammar

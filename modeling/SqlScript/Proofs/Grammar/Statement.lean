import SqlScript.Proofs.Grammar.Clauses

/-!
# Statements and scripts are read by their grammar

Within a depth limit, reading succeeds with exactly the scripts that the grammar allows and that
need no more than the limit (`script_ok_iff`). Behind a script, reading goes on as if it began
there, unless the next token could belong to the last statement (`script_append`).
-/

namespace SqlScript.Grammar

variable {σ : Type}

/-! ## Statements -/

section Sound

variable {d : Nat} {I rest : Input σ} {draft : Draft σ} {s : Statement (Span σ)}

/-- There is nothing in USE that could be too deep. -/
theorem useStatement_sound (hread : useStatement.read I = .matched draft rest)
    (hs : draft.statement = .ok s) :
    ∃ used, I = used ++ rest ∧ StatementPhrase used s ∧ s.need ≤ d := by
  simp only [useStatement, Rule.andThen_matched, Rule.keyword_matched, Step.bind_ok, Step.peek_ok,
    Rule.require_ok, Rule.name_matched, Step.pure_ok] at hread
  obtain ⟨key, _, ⟨m₁, rfl, hkey⟩, _, _, ⟨-, rfl⟩, name, _, ⟨m₂, rfl, hname⟩, rfl, rfl⟩ := hread
  cases hs
  refine ⟨[_, _], rfl, ?_, by simp [Statement.need]⟩
  rw [hkey, hname]
  exact .use

/-- SELECT alone, or with a list and what clauses there are. -/
theorem selectStatement_inv (hread : (selectStatement d).read I = .matched draft rest) :
    (∃ m, I = (.keyword "SELECT", m) :: rest ∧ 1 ≤ d ∧
      draft = .plain (.select (.single m) [] none)) ∨
    ∃ m used behind list c span, I = (.keyword "SELECT", m) :: (used ++ (behind ++ rest)) ∧
      CommaPhrase ExpressionPhrase used list ∧ Expr.needAll list ≤ d ∧
      ClausesPhrase behind c ∧ c.need ≤ d ∧
      Spans ((.keyword "SELECT", m) :: (used ++ behind)) span ∧
      draft = ⟨c.dropped?.map Span.first, .ok (.select span list c.kept?)⟩ := by
  simp only [selectStatement, Rule.andThen_matched, Rule.keyword_matched, Step.bind_ok,
    Rule.optional_ok] at hread
  obtain ⟨key, _, ⟨m, rfl, hkey⟩, found, _, hlist, hread⟩ := hread
  rcases hlist with ⟨rfl, rfl, habsent⟩ | ⟨⟨first, more⟩, rfl, hlist⟩
  · simp only [Step.pure_ok] at hread
    obtain ⟨rfl, rfl⟩ := hread
    have hroom := (expression_absent.mp (Rule.commaList_absent.mp habsent)).1
    exact .inl ⟨m, rfl, hroom, by rw [hkey]⟩
  · simp only [Step.bind_ok, Step.pure_ok] at hread
    obtain ⟨c, _, hclauses, rfl, rfl⟩ := hread
    obtain ⟨used, rfl, hphrase, hneed⟩ := (reads_expressions (reads_operand d)).sound hlist
    obtain ⟨behind, rfl, hc, hcneed⟩ := clauses_sound hclauses
    have hspan := hc.spans_behind ((Spans.single (.keyword "SELECT") m).append
      (hphrase.spans ExpressionPhrase.spans))
    rw [hkey]
    exact .inr ⟨m, used, behind, _, c, _, rfl, hphrase, hneed, hc, hcneed, hspan, rfl⟩

theorem selectStatement_sound (hread : (selectStatement d).read I = .matched draft rest)
    (hs : draft.statement = .ok s) :
    ∃ used, I = used ++ rest ∧ StatementPhrase used s ∧ s.need ≤ d := by
  rcases selectStatement_inv hread with ⟨m, rfl, hroom, rfl⟩ |
    ⟨m, used, behind, list, c, span, rfl, hphrase, hneed, hc, hcneed, hspan, rfl⟩
  · cases hs
    exact ⟨[_], rfl, .bareSelect, by simpa [Statement.need, Expr.needAll] using hroom⟩
  · cases hs
    have hone := arguments_one_le_need hphrase
    refine ⟨(.keyword "SELECT", m) :: (used ++ behind), by simp, ?_⟩
    -- without FROM and WHERE there are no clauses in the tree, even if an ORDER BY was read
    by_cases hsel : Selective c
    · obtain ⟨inner, hinner, hkept⟩ := hc.kept?_of_selective hsel
      rw [hkept]
      refine ⟨.select hphrase hc hsel hspan hinner, ?_⟩
      simp only [Statement.need, Option.elim_some]
      omega
    · rw [kept?_of_not_selective hsel]
      refine ⟨.selectList hphrase hc hsel hspan, ?_⟩
      simp only [Statement.need, Option.elim_none]
      omega

theorem insertStatement_sound (hread : (insertStatement d).read I = .matched draft rest)
    (hs : draft.statement = .ok s) :
    ∃ used, I = used ++ rest ∧ StatementPhrase used s ∧ s.need ≤ d := by
  simp only [insertStatement, Rule.andThen_matched, Rule.keyword_matched, Rule.symbol_matched,
    Step.bind_ok, Rule.require_ok, Step.pure_ok] at hread
  obtain ⟨key, _, ⟨m₁, rfl, hkey⟩, _, _, ⟨m₂, rfl, -⟩, table, _, htable, _, _, ⟨m₃, rfl, -⟩,
    ⟨column, columns⟩, _, hreadColumns, hread⟩ := hread
  obtain ⟨_, _, ⟨m₄, rfl, -⟩, _, _, ⟨m₅, rfl, -⟩, _, _, ⟨m₆, rfl, -⟩, ⟨value, values⟩, _,
    hreadValues, close, _, ⟨m₇, rfl, hclose⟩, rfl, rfl⟩ := hread
  cases hs
  obtain ⟨J, rfl, hinto⟩ := reads_tableRef.sound htable
  obtain ⟨K, rfl, hcolumns⟩ :=
    (reads_commaList reads_columnRef (by decide) .column).sound hreadColumns
  obtain ⟨L, rfl, hvalues, hneed⟩ := (reads_expressions (reads_operand d)).sound hreadValues
  rw [hkey, hclose]
  exact ⟨_, by simp, @StatementPhrase.insert σ m₁ m₂ J m₃ K m₄ m₅ m₆ L m₇ _ _ _
    hinto hcolumns hvalues, hneed⟩

/-- DELETE with what clauses there are. Without FROM and WHERE that is no statement. -/
theorem deleteStatement_inv (hread : (deleteStatement d).read I = .matched draft rest) :
    ∃ m used c, I = (.keyword "DELETE", m) :: (used ++ rest) ∧ ClausesPhrase used c ∧ c.need ≤ d ∧
      draft.dropped = c.dropped?.map Span.first ∧
      ((Selective c ∧ ∃ inner, Spans used inner ∧
          draft.statement = .ok (.delete ((Span.single m).through inner) ⟨inner, c⟩)) ∨
        (¬ Selective c ∧
          draft.statement = .error ⟨.deleteTable, (used ++ rest).head?.map Prod.snd⟩)) := by
  simp only [deleteStatement, Rule.andThen_matched, Rule.keyword_matched, Step.bind_ok,
    Step.peek_ok, Step.pure_ok] at hread
  obtain ⟨key, _, ⟨m, rfl, hkey⟩, _, _, ⟨rfl, rfl⟩, c, _, hclauses, rfl, rfl⟩ := hread
  obtain ⟨used, rfl, hc, hneed⟩ := clauses_sound hclauses
  refine ⟨m, used, c, rfl, hc, hneed, rfl, ?_⟩
  by_cases hsel : Selective c
  · obtain ⟨inner, hinner, hkept⟩ := hc.kept?_of_selective hsel
    exact .inl ⟨hsel, inner, hinner, by simp only [hkept, hkey]⟩
  · exact .inr ⟨hsel, by simp only [kept?_of_not_selective hsel]⟩

theorem deleteStatement_sound (hread : (deleteStatement d).read I = .matched draft rest)
    (hs : draft.statement = .ok s) :
    ∃ used, I = used ++ rest ∧ StatementPhrase used s ∧ s.need ≤ d := by
  obtain ⟨m, used, c, rfl, hc, hneed, -, ⟨hsel, inner, hinner, hok⟩ | ⟨-, herror⟩⟩ :=
    deleteStatement_inv hread
  · cases hs.symm.trans hok
    exact ⟨(.keyword "DELETE", m) :: used, rfl, .delete hc hsel (.cons _ _ hinner) hinner, hneed⟩
  · cases hs.symm.trans herror

/-- A statement that was read is one, and the limit allows it. -/
theorem statement_sound (hread : (statement d).read I = .matched draft rest)
    (hs : draft.statement = .ok s) :
    ∃ used, I = used ++ rest ∧ StatementPhrase used s ∧ s.need ≤ d := by
  simp only [statement, Rule.orElse_matched] at hread
  rcases hread with hread | ⟨-, hread | ⟨-, hread | ⟨-, hread⟩⟩⟩
  · exact useStatement_sound hread hs
  · exact selectStatement_sound hread hs
  · exact insertStatement_sound hread hs
  · exact deleteStatement_sound hread hs

/-- Nothing can be dropped but from SELECT and DELETE, and no other statement lacks anything. -/
theorem statement_matched (hread : (statement d).read I = .matched draft rest) :
    (∃ span database, draft = .plain (.use span database)) ∨
      (∃ span into columns values, draft = .plain (.insert span into columns values)) ∨
      (selectStatement d).read I = .matched draft rest ∨
      (deleteStatement d).read I = .matched draft rest := by
  simp only [statement, Rule.orElse_matched] at hread
  rcases hread with hread | ⟨-, hread | ⟨-, hread | ⟨-, hread⟩⟩⟩
  · simp only [useStatement, Rule.andThen_matched, Step.bind_ok, Step.pure_ok] at hread
    obtain ⟨_, _, -, _, _, -, _, _, -, rfl, -⟩ := hread
    exact .inl ⟨_, _, rfl⟩
  · exact .inr (.inr (.inl hread))
  · simp only [insertStatement, Rule.andThen_matched, Step.bind_ok, Step.pure_ok] at hread
    obtain ⟨_, _, -, _, _, -, _, _, -, _, _, -, _, _, -, hread⟩ := hread
    obtain ⟨_, _, -, _, _, -, _, _, -, _, _, -, _, _, -, rfl, -⟩ := hread
    exact .inr (.inl ⟨_, _, _, _, rfl⟩)
  · exact .inr (.inr (.inr hread))

/-- A statement that was read and cannot be is a DELETE. -/
theorem deleteStatement_of_error {failure} (hread : (statement d).read I = .matched draft rest)
    (h : draft.statement = .error failure) : (deleteStatement d).read I = .matched draft rest := by
  rcases statement_matched hread with
    ⟨span, database, rfl⟩ | ⟨span, into, columns, values, rfl⟩ | hselect | hdelete
  · cases h
  · cases h
  · rcases selectStatement_inv hselect with
      ⟨m, -, -, rfl⟩ | ⟨m, used, behind, list, c, span, -, -, -, -, -, -, rfl⟩ <;> cases h
  · exact hdelete

end Sound

section Complete

variable {d : Nat}

/-- USE and a name are read whatever follows. -/
theorem useStatement_complete {m₁ m₂ : σ} {name : String} {rest : Input σ} :
    useStatement.read ((.keyword "USE", m₁) :: (.name name, m₂) :: rest) =
      .matched (.plain (.use ⟨m₁, m₂⟩ name)) rest := by
  simp only [useStatement, Rule.andThen_matched, Rule.keyword_matched, Step.bind_ok, Step.peek_ok,
    Rule.require_ok, Rule.name_matched, Step.pure_ok]
  exact ⟨⟨.single m₁, ()⟩, _, ⟨m₁, rfl, rfl⟩, _, _, ⟨rfl, rfl⟩, ⟨.single m₂, name⟩, rest,
    ⟨m₂, rfl, rfl⟩, rfl, rfl⟩

/-- SELECT alone is read where no expression begins, with room to look for one. -/
theorem selectStatement_bare {m : σ} {rest : Input σ} (hd : 1 ≤ d)
    (hstop : Stops Kind.continuesStatement rest) :
    (selectStatement d).read ((.keyword "SELECT", m) :: rest) =
      .matched (.plain (.select (.single m) [] none)) rest := by
  simp only [selectStatement, Rule.andThen_matched, Rule.keyword_matched, Step.bind_ok,
    Rule.optional_ok]
  refine ⟨⟨.single m, ()⟩, rest, ⟨m, rfl, rfl⟩, none, rest, .inl ⟨rfl, rfl, ?_⟩, rfl⟩
  rw [Rule.commaList_absent, expression_absent]
  exact ⟨hd, hstop.operands⟩

theorem selectStatement_complete {m : σ} {I J rest : Input σ} {list c span}
    (hlist : CommaPhrase ExpressionPhrase I list) (hneed : Expr.needAll list ≤ d)
    (hc : ClausesPhrase J c) (hcneed : c.need ≤ d)
    (hspan : Spans ((.keyword "SELECT", m) :: (I ++ J)) span)
    (hstop : Stops Kind.continuesStatement rest) :
    (selectStatement d).read ((.keyword "SELECT", m) :: (I ++ (J ++ rest))) =
      .matched ⟨c.dropped?.map Span.first, .ok (.select span list c.kept?)⟩ rest := by
  obtain ⟨first, more, rfl⟩ := hlist.exists_cons
  simp only [selectStatement, Rule.andThen_matched, Rule.keyword_matched, Step.bind_ok,
    Rule.optional_ok]
  refine ⟨⟨.single m, ()⟩, _, ⟨m, rfl, rfl⟩, some (first, more), J ++ rest,
    .inr ⟨_, rfl, (reads_expressions (reads_operand d)).complete ⟨hlist, hneed⟩
      (hc.stops_expressions hstop)⟩, ?_⟩
  simp only [Step.bind_ok, Step.pure_ok]
  refine ⟨c, rest, clauses_complete hc hcneed hstop, ?_, rfl⟩
  rw [hspan.unique (hc.spans_behind ((Spans.single (.keyword "SELECT") m).append
    (hlist.spans ExpressionPhrase.spans)))]

theorem insertStatement_complete {m₁ m₂ m₃ m₄ m₅ m₆ m₇ : σ} {I J K rest : Input σ}
    {table columns values}
    (hinto : TablePhrase I table) (hcolumns : CommaPhrase ColumnPhrase J columns)
    (hvalues : CommaPhrase ExpressionPhrase K values) (hneed : Expr.needAll values ≤ d) :
    (insertStatement d).read
        ((.keyword "INSERT", m₁) :: (.keyword "INTO", m₂) :: (I ++ (.symbol "(", m₃) :: (J ++
          (.symbol ")", m₄) :: (.keyword "VALUES", m₅) :: (.symbol "(", m₆) :: (K ++
            (.symbol ")", m₇) :: rest)))) =
      .matched (.plain (.insert ⟨m₁, m₇⟩ table columns values)) rest := by
  obtain ⟨column, columns, rfl⟩ := hcolumns.exists_cons
  obtain ⟨value, values, rfl⟩ := hvalues.exists_cons
  simp only [insertStatement, Rule.andThen_matched, Rule.keyword_matched, Rule.symbol_matched,
    Step.bind_ok, Rule.require_ok, Step.pure_ok]
  refine ⟨⟨.single m₁, ()⟩, _, ⟨m₁, rfl, rfl⟩, ⟨.single m₂, ()⟩, _, ⟨m₂, rfl, rfl⟩, table, _,
    reads_tableRef.complete hinto (stops_cons.mpr (by decide)),
    ⟨.single m₃, ()⟩, _, ⟨m₃, rfl, rfl⟩, (column, columns), _,
    (reads_commaList reads_columnRef (by decide) .column).complete hcolumns
      (stops_cons.mpr (by decide)),
    ⟨.single m₄, ()⟩, _, ⟨m₄, rfl, rfl⟩, ⟨.single m₅, ()⟩, _, ⟨m₅, rfl, rfl⟩,
    ⟨.single m₆, ()⟩, _, ⟨m₆, rfl, rfl⟩, (value, values), _,
    (reads_expressions (reads_operand d)).complete ⟨hvalues, hneed⟩ (stops_cons.mpr (by decide)),
    ⟨.single m₇, ()⟩, rest, ⟨m₇, rfl, rfl⟩, rfl, rfl⟩

theorem deleteStatement_complete {m : σ} {J rest : Input σ} {c span inner}
    (hc : ClausesPhrase J c) (hsel : Selective c) (hneed : c.need ≤ d)
    (hspan : Spans ((.keyword "DELETE", m) :: J) span) (hinner : Spans J inner)
    (hstop : Stops Kind.continuesStatement rest) :
    (deleteStatement d).read ((.keyword "DELETE", m) :: (J ++ rest)) =
      .matched ⟨c.dropped?.map Span.first, .ok (.delete span ⟨inner, c⟩)⟩ rest := by
  simp only [deleteStatement, Rule.andThen_matched, Rule.keyword_matched, Step.bind_ok,
    Step.peek_ok, Step.pure_ok]
  refine ⟨⟨.single m, ()⟩, _, ⟨m, rfl, rfl⟩, _, _, ⟨rfl, rfl⟩, c, rest,
    clauses_complete hc hneed hstop, ?_, rfl⟩
  obtain ⟨s, hs, hkept⟩ := hc.kept?_of_selective hsel
  rw [hkept, hs.unique hinner, hspan.unique (.cons _ _ hinner)]

/-! The four rules look for different keywords, so each is tried at its own statements only. -/

/-- The keyword decides which statement is read. -/
theorem statement_of_select {m : σ} {I : Input σ} {outcome}
    (h : (selectStatement d).read ((.keyword "SELECT", m) :: I) = outcome) :
    (statement d).read ((.keyword "SELECT", m) :: I) = outcome := by
  rw [statement, Rule.orElse_of_absent (by simp [useStatement]),
    Rule.orElse_of_ne_absent (by simp [selectStatement]), h]

theorem statement_of_insert {m : σ} {I : Input σ} {outcome}
    (h : (insertStatement d).read ((.keyword "INSERT", m) :: I) = outcome) :
    (statement d).read ((.keyword "INSERT", m) :: I) = outcome := by
  rw [statement, Rule.orElse_of_absent (by simp [useStatement]),
    Rule.orElse_of_absent (by simp [selectStatement]),
    Rule.orElse_of_ne_absent (by simp [insertStatement]), h]

theorem statement_of_delete {m : σ} {I : Input σ} {outcome}
    (h : (deleteStatement d).read ((.keyword "DELETE", m) :: I) = outcome) :
    (statement d).read ((.keyword "DELETE", m) :: I) = outcome := by
  rw [statement, Rule.orElse_of_absent (by simp [useStatement]),
    Rule.orElse_of_absent (by simp [selectStatement]),
    Rule.orElse_of_absent (by simp [insertStatement]), h]

/-- What is dropped depends on the statement's tokens and not on what follows them. -/
theorem statement_complete {I : Input σ} {s} (h : StatementPhrase I s) (hneed : s.need ≤ d) :
    ∃ dropped, ∀ rest, Stops Kind.continuesStatement rest →
      (statement d).read (I ++ rest) = .matched ⟨dropped, .ok s⟩ rest := by
  cases h with
  | use =>
    refine ⟨none, fun rest _ => ?_⟩
    simp only [statement, Rule.orElse_matched]
    exact .inl useStatement_complete
  | bareSelect =>
    have hd : 1 ≤ d := by simpa [Statement.need, Expr.needAll] using hneed
    exact ⟨none, fun rest hstop => statement_of_select (selectStatement_bare hd hstop)⟩
  | @select m I J list c span inner hlist hc hsel hspan hinner =>
    obtain ⟨hlistNeed, hcNeed⟩ := Nat.max_le.mp hneed
    obtain ⟨kept, hkept, heq⟩ := hc.kept?_of_selective hsel
    refine ⟨c.dropped?.map Span.first, fun rest hstop => ?_⟩
    have hread :=
      selectStatement_complete hlist (Nat.max_le.mp hlistNeed).2 hc hcNeed hspan hstop
    rw [heq, hkept.unique hinner] at hread
    rw [List.cons_append, List.append_assoc]
    exact statement_of_select hread
  | @selectList m I J list c span hlist hc hsel hspan =>
    have hlistNeed := (Nat.max_le.mp (Nat.max_le.mp hneed).1).2
    have hcNeed : c.need ≤ d := by
      have hfilter : c.filter = none := by simpa [Selective] using mt .inr hsel
      simp [Clauses.need, hfilter]
    refine ⟨c.dropped?.map Span.first, fun rest hstop => ?_⟩
    have hread := selectStatement_complete hlist hlistNeed hc hcNeed hspan hstop
    rw [kept?_of_not_selective hsel] at hread
    rw [List.cons_append, List.append_assoc]
    exact statement_of_select hread
  | insert hinto hcolumns hvalues =>
    refine ⟨none, fun rest hstop => ?_⟩
    simp only [List.cons_append, List.append_assoc, List.nil_append]
    exact statement_of_insert (insertStatement_complete hinto hcolumns hvalues hneed)
  | @delete m J c span inner hc hsel hspan hinner =>
    exact ⟨c.dropped?.map Span.first, fun rest hstop =>
      statement_of_delete (deleteStatement_complete hc hsel hneed hspan hinner hstop)⟩

end Complete

/-! ## Scripts -/

namespace Reading

/-- A reading behind what was dropped and the statements that were read before it. -/
def behind (r : Reading σ) (dropped : List σ) (ss : List (Statement (Span σ))) : Reading σ :=
  ⟨dropped ++ r.dropped, r.result.map (ss ++ ·)⟩

variable {r : Reading σ} {dropped : List σ} {ss : List (Statement (Span σ))}

theorem behind_nil (r : Reading σ) : r.behind [] [] = r := by
  obtain ⟨dropped, result⟩ := r
  cases result <;> rfl

/-- Pieces of a reading are put together in order. -/
theorem behind_behind {dropped' : List σ} {ss' : List (Statement (Span σ))} :
    (r.behind dropped ss).behind dropped' ss' = r.behind (dropped' ++ dropped) (ss' ++ ss) := by
  obtain ⟨_, result⟩ := r
  cases result <;> simp [behind, Except.map]

theorem prepend_eq_behind (draft : Draft σ) (s : Statement (Span σ)) (r : Reading σ) :
    r.prepend draft s = r.behind draft.dropped.toList [s] := rfl

/-- A reading succeeds with what was read first and with what is read then. -/
theorem behind_ok {all : List (Statement (Span σ))} :
    (r.behind dropped ss).result = .ok all ↔ ∃ more, r.result = .ok more ∧ all = ss ++ more := by
  obtain ⟨_, result⟩ := r
  cases result <;> simp [behind, Except.map, eq_comm]

end Reading

section Script

variable {d : Nat}

/-- Every statement begins with a keyword that nothing else can begin with or go on with. -/
theorem StatementPhrase.starts {I : Input σ} {s} (h : StatementPhrase I s) :
    ∃ word m more, I = (.keyword word, m) :: more ∧
      word ∈ ["USE", "SELECT", "INSERT", "DELETE"] := by
  cases h <;> exact ⟨_, _, _, rfl, by simp⟩

theorem continuesStatement_of_starts {word : String}
    (h : word ∈ ["USE", "SELECT", "INSERT", "DELETE"]) :
    (Kind.keyword word).continuesStatement = false := by
  simp only [List.mem_cons, List.not_mem_nil, or_false] at h
  rcases h with rfl | rfl | rfl | rfl <;> decide

/-- A script does not go on what stands before it. -/
theorem ScriptPhrase.stops {I rest : Input σ} {ss} (h : ScriptPhrase I ss)
    (hrest : Stops Kind.continuesStatement rest) : Stops Kind.continuesStatement (I ++ rest) := by
  cases h with
  | nil => exact hrest
  | semicolon _ => exact stops_cons.mpr (by decide)
  | cons first _ =>
    obtain ⟨word, m, more, rfl, hword⟩ := first.starts
    exact stops_cons.mpr (continuesStatement_of_starts hword)

@[simp] theorem script_nil : script d ([] : Input σ) = ⟨[], .ok []⟩ := by rw [script]

@[simp] theorem script_semicolon {m : σ} {I : Input σ} :
    script d ((.symbol ";", m) :: I) = script d I := by
  rw [script, if_pos rfl]

/-- One step of the recursion, over a statement that was read. -/
theorem script_of_statement {I rest : Input σ} {draft : Draft σ} {s}
    (hread : (statement d).read I = .matched draft rest) (hs : draft.statement = .ok s) :
    script d I = (script d rest).behind draft.dropped.toList [s] := by
  obtain ⟨used, rfl, hphrase, -⟩ := statement_sound hread hs
  obtain ⟨word, m, more, rfl, -⟩ := hphrase.starts
  rw [List.cons_append] at hread ⊢
  rw [script, if_neg (by simp)]
  split
  · next habsent => cases hread.symm.trans habsent
  · next hmalformed => cases hread.symm.trans hmalformed
  · next hmatched =>
    cases hread.symm.trans hmatched
    simp only [hs, Reading.prepend_eq_behind]

/-- By induction on the recursion of `script`. -/
theorem script_sound {I : Input σ} {ss} (h : (script d I).result = .ok ss) :
    ScriptPhrase I ss ∧ Statement.needAll ss ≤ d := by
  fun_induction script d I generalizing ss with
  | case1 =>
    cases h
    exact ⟨.nil, Nat.zero_le d⟩
  | case2 m I ih =>
    obtain ⟨hphrase, hneed⟩ := ih h
    exact ⟨.semicolon hphrase, hneed⟩
  | case3 => cases h
  | case4 => cases h
  | case5 => cases h
  | case6 kind m I _ draft rest hread s hs ih =>
    rw [Reading.prepend_eq_behind] at h
    obtain ⟨more, hmore, rfl⟩ := Reading.behind_ok.mp h
    obtain ⟨used, heq, hphrase, hneed⟩ := statement_sound hread hs
    obtain ⟨hphrases, hneeds⟩ := ih hmore
    exact ⟨heq ▸ .cons hphrase hphrases, Nat.max_le.mpr ⟨hneed, hneeds⟩⟩

/-- Behind a script, reading goes on as if it began there. -/
theorem script_append {I : Input σ} {ss} (h : ScriptPhrase I ss)
    (hneed : Statement.needAll ss ≤ d) :
    ∃ dropped, ∀ rest, Stops Kind.continuesStatement rest →
      script d (I ++ rest) = (script d rest).behind dropped ss := by
  induction h with
  | nil => exact ⟨[], fun rest _ => (script d rest).behind_nil.symm⟩
  | semicolon more ih =>
    obtain ⟨dropped, hread⟩ := ih hneed
    exact ⟨dropped, fun rest hstop => by rw [List.cons_append, script_semicolon, hread rest hstop]⟩
  | @cons I J s ss first more ih =>
    obtain ⟨hfirst, hmore⟩ := Nat.max_le.mp hneed
    obtain ⟨dropped, hread⟩ := statement_complete first hfirst
    obtain ⟨dropped', hreadMore⟩ := ih hmore
    -- neither a semicolon nor another statement can continue the first one
    refine ⟨dropped.toList ++ dropped', fun rest hstop => ?_⟩
    rw [List.append_assoc, script_of_statement (hread _ (more.stops hstop)) rfl,
      hreadMore rest hstop, Reading.behind_behind]
    rfl

/-- Reading succeeds with the scripts that the grammar allows and the limit has room for. -/
theorem script_ok_iff {I : Input σ} {ss} :
    (script d I).result = .ok ss ↔ ScriptPhrase I ss ∧ Statement.needAll ss ≤ d := by
  refine ⟨script_sound, fun ⟨hphrase, hneed⟩ => ?_⟩
  obtain ⟨dropped, hread⟩ := script_append hphrase hneed
  have hall := hread [] .nil
  rw [List.append_nil] at hall
  exact hall ▸ Reading.behind_ok.mpr ⟨[], by rw [script_nil], by simp⟩

end Script

end SqlScript.Grammar

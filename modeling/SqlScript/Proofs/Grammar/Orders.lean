import SqlScript.Proofs.Grammar.Statement
import SqlScript.Proofs.Grammar.Semicolon

/-!
# Where ORDER BY goes

The keyword ORDER begins a clause wherever it stands in a statement. The clause is a node of the
tree, or it is what was dropped from the statement (`statement_orders`). Nothing but an ORDER BY
directly behind DELETE is dropped from what turns out not to be a statement
(`dropped_of_statement_error`).
-/

namespace SqlScript

open Grammar

variable {σ : Type}

/-- The marks of the keywords ORDER, in the order in which they stand. -/
def Input.orders (I : Input σ) : List σ :=
  (I.filter fun t => t.1 = .keyword "ORDER").map Prod.snd

@[simp] theorem Input.orders_nil : Input.orders ([] : Input σ) = [] := rfl

@[simp] theorem Input.orders_order {m : σ} {I : Input σ} :
    Input.orders ((.keyword "ORDER", m) :: I) = m :: Input.orders I := rfl

theorem Input.orders_cons {kind : Kind} {m : σ} {I : Input σ} (h : kind ≠ .keyword "ORDER") :
    Input.orders ((kind, m) :: I) = Input.orders I := by
  simp [Input.orders, h]

@[simp] theorem Input.orders_append {I J : Input σ} :
    Input.orders (I ++ J) = Input.orders I ++ Input.orders J := by
  simp [Input.orders]

theorem Input.mem_orders {I : Input σ} {m : σ} :
    m ∈ Input.orders I ↔ (.keyword "ORDER", m) ∈ I := by
  simp [Input.orders]

namespace Grammar

theorem Lacks.orders {I : Input σ} (h : Lacks (.keyword "ORDER") I) : Input.orders I = [] := by
  simpa [Input.orders, Lacks] using h

end Grammar

/-! ## Clauses -/

/-- The first token of the ORDER BY. -/
def Clauses.ordered? (c : Clauses (Span σ)) : Option σ := c.order.map fun o => o.span.first

namespace Grammar

theorem OrderPhrase.orders {I : Input σ} {o} (h : OrderPhrase I o) :
    Input.orders I = [o.span.first] := by
  cases h with
  | @intro m₁ m₂ I columns span list hspan =>
    have hcolumns : Lacks (.keyword "ORDER") I :=
      list.lacks (by decide) fun h => h.lacks (by decide)
    have hfirst : m₁ = span.first := Option.some.inj hspan.1
    rw [Input.orders_order, Input.orders_cons (by decide), hcolumns.orders, hfirst]

theorem FromPhrase.orders {I : Input σ} {c} (h : FromPhrase I c) : Input.orders I = [] := by
  cases h with
  | intro list _ =>
    have hlist : Lacks (.keyword "ORDER") _ := list.lacks (by decide) fun h => h.lacks (by decide)
    exact (lacks_cons.mpr ⟨by decide, hlist⟩).orders

theorem WherePhrase.orders {I : Input σ} {c} (h : WherePhrase I c) : Input.orders I = [] := by
  cases h with
  | intro expression _ =>
    exact (lacks_cons.mpr ⟨by decide, expression.lacks (by decide)⟩).orders

theorem OptionalPhrase.orders {α : Type} {phrase : Input σ → α → Prop} {I : Input σ} {found}
    (h : OptionalPhrase phrase I found) (hphrase : ∀ {J x}, phrase J x → Input.orders J = []) :
    Input.orders I = [] := by
  cases h with
  | absent => rfl
  | present h => exact hphrase h

theorem ClausesPhrase.orders {I : Input σ} {c} (h : ClausesPhrase I c) :
    Input.orders I = c.ordered?.toList := by
  cases h with
  | intro from? where? order? =>
    rw [Input.orders_append, Input.orders_append, from?.orders FromPhrase.orders,
      where?.orders WherePhrase.orders, List.nil_append, List.nil_append]
    cases order? with
    | absent => rfl
    | present h => exact h.orders

theorem dropped?_of_selective {c : Clauses (Span σ)} (hc : Selective c) : c.dropped? = none := by
  rw [Clauses.dropped?, if_pos (by simpa [Selective] using hc)]

theorem dropped?_of_not_selective {c : Clauses (Span σ)} (hc : ¬ Selective c) :
    c.dropped?.map Span.first = c.ordered? := by
  rw [Clauses.dropped?, if_neg (by simpa [Selective] using hc), Option.map_map]
  rfl

/-- Clauses without FROM and WHERE are an ORDER BY or nothing. -/
theorem ClausesPhrase.ordered?_isSome {I : Input σ} {c} (h : ClausesPhrase I c)
    (hc : ¬ Selective c) : c.ordered?.isSome = true ↔ 0 < I.length := by
  cases h with
  | intro from? where? order? =>
    cases from? with
    | present => exact (hc (.inl rfl)).elim
    | absent =>
      cases where? with
      | present => exact (hc (.inr rfl)).elim
      | absent =>
        cases order? with
        | absent => simp [Clauses.ordered?]
        | present h => simpa [Clauses.ordered?, List.length_pos_iff] using h.spans.ne_nil

end Grammar

/-! ## Statements -/

/-- The first token of the ORDER BY that has a node. -/
def Statement.ordered? : Statement (Span σ) → Option σ
  | select _ _ kept => kept.bind fun c => c.node.ordered?
  | delete _ kept => kept.node.ordered?
  | use _ _ | insert _ _ _ _ => none

namespace Grammar

section Statement

variable {d : Nat} {used rest : Input σ} {draft : Draft σ} {s : Statement (Span σ)}

/-- Each ORDER in a statement begins the clause that has a node, or the one that was dropped. -/
theorem statement_orders (hread : (statement d).read (used ++ rest) = .matched draft rest)
    (hs : draft.statement = .ok s) :
    Input.orders used = s.ordered?.toList ++ draft.dropped.toList := by
  rcases statement_matched hread with
    ⟨span, database, rfl⟩ | ⟨span, into, columns, values, rfl⟩ | hselect | hdelete
  · cases hs
    obtain ⟨_, hused, hphrase, -⟩ := statement_sound hread rfl
    cases List.append_cancel_right hused
    cases hphrase
    rfl
  · cases hs
    obtain ⟨_, hused, hphrase, -⟩ := statement_sound hread rfl
    cases List.append_cancel_right hused
    cases hphrase with
    | insert hinto hcolumns hvalues =>
      have hcolumns : Lacks (.keyword "ORDER") _ :=
        hcolumns.lacks (by decide) fun h => h.lacks (by decide)
      exact Lacks.orders (by simpa using
        ⟨hinto.lacks (by decide), hcolumns, arguments_lack hvalues (by decide)⟩)
  · rcases selectStatement_inv hselect with
      ⟨m, heq, -, rfl⟩ | ⟨m, I, J, list, c, span, heq, hlist, -, hc, -, -, rfl⟩
    · cases hs
      have heq : used ++ rest = [(.keyword "SELECT", m)] ++ rest := heq
      cases List.append_cancel_right heq
      rfl
    · cases hs
      rw [← List.append_assoc, ← List.cons_append] at heq
      cases List.append_cancel_right heq
      rw [Input.orders_cons (by decide), Input.orders_append,
        (arguments_lack hlist (by decide)).orders, List.nil_append, hc.orders]
      by_cases hsel : Selective c
      · obtain ⟨inner, -, hkept⟩ := hc.kept?_of_selective hsel
        rw [hkept, dropped?_of_selective hsel]
        simp [Statement.ordered?]
      · rw [kept?_of_not_selective hsel, dropped?_of_not_selective hsel]
        rfl
  · obtain ⟨m, I, c, heq, hc, -, hdropped, ⟨hsel, inner, -, hok⟩ | ⟨-, herror⟩⟩ :=
      deleteStatement_inv hdelete
    · cases hs.symm.trans hok
      rw [← List.cons_append] at heq
      cases List.append_cancel_right heq
      rw [Input.orders_cons (by decide), hc.orders, hdropped, dropped?_of_selective hsel]
      simp [Statement.ordered?]
    · cases hs.symm.trans herror

/-! ## DELETE without FROM and WHERE -/

/-- The first token of an ORDER BY that stands directly behind DELETE, if it can be read. -/
def stray? : Input σ → Option σ
  | (.keyword "DELETE", _) :: more =>
    match orderClause.read more with
    | .matched order _ => some order.span.first
    | _ => none
  | _ => none

/-- Clauses without FROM and WHERE are what is made of ORDER BY. -/
theorem clauses_not_selective {I : Input σ} {c : Clauses (Span σ)}
    (hread : (clauses d).read I = .ok (c, rest)) (hc : ¬ Selective c) :
    orderClause.optional.read I = .ok (c.order, rest) := by
  simp only [clauses, Step.bind_ok, Step.pure_ok] at hread
  obtain ⟨tables, _, hfrom, filter, _, hwhere, order, _, horder, rfl, rfl⟩ := hread
  simp only [Selective, not_or, Bool.not_eq_true, Option.isSome_eq_false_iff,
    Option.isNone_iff_eq_none] at hc
  obtain ⟨rfl, rfl⟩ := hc
  obtain ⟨-, rfl, -⟩ | ⟨_, h, -⟩ := Rule.optional_ok.mp hfrom
  · obtain ⟨-, rfl, -⟩ | ⟨_, h, -⟩ := Rule.optional_ok.mp hwhere
    · exact horder
    · cases h
  · cases h

theorem clauses_of_order {I : Input σ} {o} (h : orderClause.read I = .matched o rest) :
    (clauses d).read I = .ok (⟨none, none, some o⟩, rest) := by
  obtain ⟨used, rfl, hphrase⟩ := reads_orderClause.sound h
  cases hphrase with
  | intro list hspan =>
    simp only [clauses, Step.bind_ok, Step.pure_ok]
    refine ⟨none, _, Rule.optional_ok.mpr (.inl ⟨rfl, rfl, ?_⟩), none, _,
      Rule.optional_ok.mpr (.inl ⟨rfl, rfl, ?_⟩), _, _,
      Rule.optional_ok.mpr (.inr ⟨_, rfl, h⟩), rfl, rfl⟩
    · exact fromClause_absent (stops_cons.mpr (by decide))
    · exact whereClause_absent (stops_cons.mpr (by decide))

/-- What turns out to be no statement loses the ORDER BY directly behind DELETE. -/
theorem dropped_of_statement_error {I : Input σ} {failure}
    (hread : (statement d).read I = .matched draft rest) (h : draft.statement = .error failure) :
    draft.dropped = stray? I := by
  have hdelete := deleteStatement_of_error hread h
  simp only [deleteStatement, Rule.andThen_matched, Rule.keyword_matched, Step.bind_ok,
    Step.peek_ok, Step.pure_ok] at hdelete
  obtain ⟨key, _, ⟨m, rfl, -⟩, _, _, ⟨-, rfl⟩, c, _, hclauses, rfl, rfl⟩ := hdelete
  by_cases hsel : Selective c
  · obtain ⟨used, -, hc, -⟩ := clauses_sound hclauses
    obtain ⟨inner, -, hkept⟩ := hc.kept?_of_selective hsel
    simp only [hkept] at h
    cases h
  · rw [dropped?_of_not_selective hsel, Clauses.ordered?, stray?]
    rcases Rule.optional_ok.mp (clauses_not_selective hclauses hsel) with
      ⟨hnone, -, habsent⟩ | ⟨o, hsome, hmatched⟩
    · rw [habsent, hnone]
      rfl
    · rw [hmatched, hsome]
      rfl

/-- Where an ORDER BY stands directly behind DELETE, both are read. -/
theorem stray?_eq_none {I : Input σ}
    (h : ∀ draft rest, (statement d).read I ≠ .matched draft rest) : stray? I = none := by
  unfold stray?
  split
  · next m more =>
    split
    · next o rest horder =>
      have hdelete : ∃ draft, (deleteStatement d).read ((.keyword "DELETE", m) :: more) =
          .matched draft rest := by
        simp only [deleteStatement, Rule.andThen_matched, Rule.keyword_matched, Step.bind_ok,
          Step.peek_ok, Step.pure_ok]
        exact ⟨_, ⟨.single m, ()⟩, _, ⟨m, rfl, rfl⟩, _, _, ⟨rfl, rfl⟩, _, _,
          clauses_of_order horder, rfl, rfl⟩
      obtain ⟨draft, hdraft⟩ := hdelete
      exact (h draft rest (statement_of_delete hdraft)).elim
    · rfl
  · rfl

end Statement

end Grammar

end SqlScript

import SqlScript.Proofs.Grammar.Expression

/-!
# Clauses are read by their grammar

The three clauses, each of which may be missing, and the spans and nodes that are made of them.
-/

namespace SqlScript

variable {σ α : Type}

namespace Kind

/-- The first keywords of the clauses. -/
def startsClause (kind : Kind) : Bool :=
  kind = .keyword "FROM" || kind = .keyword "WHERE" || kind = .keyword "ORDER"

/-- What stands directly behind a statement and is of this kind may belong to it. -/
def continuesStatement (kind : Kind) : Bool :=
  continuesList continuesExpression kind || kind.startsOperand || kind.startsClause

end Kind

namespace Stops

variable {rest : Input σ}

/-- What belongs to no statement belongs to no list in it. -/
theorem expressions (h : Stops Kind.continuesStatement rest) :
    Stops (Kind.continuesList Kind.continuesExpression) rest :=
  h.mono fun kind hkind => by simp [Kind.continuesStatement, hkind]

theorem names_of_expressions (h : Stops (Kind.continuesList Kind.continuesExpression) rest) :
    Stops (Kind.continuesList Kind.continuesName) rest :=
  h.mono fun kind hkind => by
    simp only [Kind.continuesList, Kind.continuesExpression, Kind.continuesOperand,
      Bool.or_eq_true] at hkind ⊢
    rcases hkind with hkind | hkind <;> simp [hkind]

theorem names (h : Stops Kind.continuesStatement rest) :
    Stops (Kind.continuesList Kind.continuesName) rest :=
  h.expressions.names_of_expressions

theorem operands (h : Stops Kind.continuesStatement rest) : Stops Kind.startsOperand rest :=
  h.mono fun kind hkind => by simp [Kind.continuesStatement, hkind]

/-- And begins no clause of it. -/
theorem keyword {word : String} (hword : (Kind.keyword word).startsClause = true)
    (h : Stops Kind.continuesStatement rest) : Stops (· = .keyword word) rest :=
  h.mono fun kind hkind => by
    obtain rfl : kind = .keyword word := by simpa using hkind
    simp [Kind.continuesStatement, hword]

/-- Two pieces in a row, neither of which begins with what could continue. -/
theorem append {continues : Kind → Bool} {I : Input σ} (hI : Stops continues I)
    (hrest : Stops continues rest) : Stops continues (I ++ rest) := by
  cases I with
  | nil => exact hrest
  | cons first more => exact hI

end Stops

namespace Grammar

/-! ## Phrases that may be missing -/

section Optional

variable {rule : Rule σ α} {phrase : Input σ → α → Prop} {continues : Kind → Bool}

/-- What may be absent is read by its phrase, if it is read. -/
theorem optional_sound (h : rule.Reads phrase continues) {I rest : Input σ} {found}
    (hread : rule.optional.read I = .ok (found, rest)) :
    ∃ used, I = used ++ rest ∧ OptionalPhrase phrase used found := by
  rcases Rule.optional_ok.mp hread with ⟨rfl, rfl, -⟩ | ⟨x, rfl, hx⟩
  · exact ⟨[], rfl, .absent⟩
  · obtain ⟨used, rfl, hphrase⟩ := h.sound hx
    exact ⟨used, rfl, .present hphrase⟩

/-- It is taken if it is there, and nothing is taken if it is not. -/
theorem optional_complete (h : rule.Reads phrase continues) {I rest : Input σ} {found}
    (hphrase : OptionalPhrase phrase I found) (hstop : Stops continues rest)
    (habsent : rule.read rest = .absent) :
    rule.optional.read (I ++ rest) = .ok (found, rest) := by
  cases hphrase with
  | absent => exact Rule.optional_ok.mpr (.inl ⟨rfl, rfl, habsent⟩)
  | present hx => exact Rule.optional_ok.mpr (.inr ⟨_, rfl, h.complete hx hstop⟩)

end Optional

/-! ## The clauses -/

theorem reads_fromClause :
    (fromClause : Rule σ _).Reads FromPhrase (Kind.continuesList Kind.continuesName) where
  sound {I x rest} h := by
    simp only [fromClause, Rule.andThen_matched, Rule.keyword_matched, Step.bind_ok,
      Rule.require_ok, Step.pure_ok] at h
    obtain ⟨key, _, ⟨m, rfl, hspan⟩, ⟨first, more⟩, _, hlist, rfl, rfl⟩ := h
    obtain ⟨used, rfl, hphrase⟩ := (reads_commaList reads_tableRef (by decide) .table).sound hlist
    refine ⟨(.keyword "FROM", m) :: used, rfl, .intro hphrase ?_⟩
    rw [hspan]
    exact .cons _ _ (hphrase.spans TablePhrase.spans)
  complete {I x rest} h hstop := by
    simp only [fromClause, Rule.andThen_matched, Rule.keyword_matched, Step.bind_ok,
      Rule.require_ok, Step.pure_ok]
    cases h with
    | @intro m I tables span list hspan =>
      obtain ⟨first, more, rfl⟩ := list.exists_cons
      refine ⟨⟨.single m, ()⟩, _, ⟨m, rfl, rfl⟩, (first, more), rest,
        (reads_commaList reads_tableRef (by decide) .table).complete list hstop, ?_, rfl⟩
      rw [hspan.unique (.cons _ _ (list.spans TablePhrase.spans))]

theorem reads_whereClause (d : Nat) :
    (whereClause d : Rule σ _).Reads (fun I w => WherePhrase I w ∧ w.node.need ≤ d)
      Kind.continuesExpression where
  sound {I x rest} h := by
    simp only [whereClause, Rule.andThen_matched, Rule.keyword_matched, Step.bind_ok,
      Rule.require_ok, Step.pure_ok] at h
    obtain ⟨key, _, ⟨m, rfl, hspan⟩, condition, _, hcondition, rfl, rfl⟩ := h
    obtain ⟨used, rfl, hphrase, hneed⟩ := (reads_expression d).sound hcondition
    refine ⟨(.keyword "WHERE", m) :: used, rfl, .intro hphrase ?_, hneed⟩
    rw [hspan]
    exact .cons _ _ hphrase.spans
  complete {I x rest} h hstop := by
    simp only [whereClause, Rule.andThen_matched, Rule.keyword_matched, Step.bind_ok,
      Rule.require_ok, Step.pure_ok]
    obtain ⟨h, hneed⟩ := h
    cases h with
    | @intro m I condition span expression hspan =>
      refine ⟨⟨.single m, ()⟩, _, ⟨m, rfl, rfl⟩, condition, rest,
        (reads_expression d).complete ⟨expression, hneed⟩ hstop, ?_, rfl⟩
      rw [hspan.unique (.cons _ _ expression.spans)]

theorem reads_orderClause :
    (orderClause : Rule σ _).Reads OrderPhrase (Kind.continuesList Kind.continuesName) where
  sound {I x rest} h := by
    simp only [orderClause, Rule.andThen_matched, Rule.both_matched, Rule.keyword_matched,
      Step.bind_ok, Rule.require_ok, Step.pure_ok] at h
    obtain ⟨⟨order, by'⟩, _, ⟨_, ⟨m₁, rfl, hspan⟩, m₂, rfl, -⟩, ⟨first, more⟩, _, hlist, rfl,
      rfl⟩ := h
    obtain ⟨used, rfl, hphrase⟩ := (reads_commaList reads_columnRef (by decide) .column).sound hlist
    refine ⟨(.keyword "ORDER", m₁) :: (.keyword "BY", m₂) :: used, rfl, .intro hphrase ?_⟩
    rw [hspan]
    exact (Spans.single _ m₁).through (hphrase.spans ColumnPhrase.spans) [_]
  complete {I x rest} h hstop := by
    simp only [orderClause, Rule.andThen_matched, Rule.both_matched, Rule.keyword_matched,
      Step.bind_ok, Rule.require_ok, Step.pure_ok]
    cases h with
    | @intro m₁ m₂ I columns span list hspan =>
      obtain ⟨first, more, rfl⟩ := list.exists_cons
      refine ⟨(⟨.single m₁, ()⟩, ⟨.single m₂, ()⟩), _, ⟨_, ⟨m₁, rfl, rfl⟩, m₂, rfl, rfl⟩,
        (first, more), rest,
        (reads_commaList reads_columnRef (by decide) .column).complete list hstop, ?_, rfl⟩
      rw [hspan.unique ((Spans.single _ m₁).through (list.spans ColumnPhrase.spans) [_])]

theorem fromClause_absent {I : Input σ} (h : Stops (· = .keyword "FROM") I) :
    (fromClause : Rule σ _).read I = .absent := by
  simp only [fromClause, Rule.andThen_absent, Rule.keyword_absent]
  exact fun first hfirst => by simpa using h first hfirst

theorem whereClause_absent {d : Nat} {I : Input σ} (h : Stops (· = .keyword "WHERE") I) :
    (whereClause d : Rule σ _).read I = .absent := by
  simp only [whereClause, Rule.andThen_absent, Rule.keyword_absent]
  exact fun first hfirst => by simpa using h first hfirst

theorem orderClause_absent {I : Input σ} (h : Stops (· = .keyword "ORDER") I) :
    (orderClause : Rule σ _).read I = .absent := by
  simp only [orderClause, Rule.andThen_absent, Rule.both_absent, Rule.keyword_absent]
  exact .inl fun first hfirst => by simpa using h first hfirst

/-- Where something may stand, what stops what follows and what begins it stop both. -/
theorem OptionalPhrase.stops {phrase : Input σ → α → Prop} {continues : Kind → Bool} {I : Input σ}
    {found} (h : OptionalPhrase phrase I found)
    (hfirst : ∀ {J x}, phrase J x → Stops continues J) : Stops continues I := by
  cases h with
  | absent => exact .nil
  | present h => exact hfirst h

/-- Clauses begin with their own keywords, if there are any. -/
theorem ClausesPhrase.stops {continues : Kind → Bool} {I : Input σ} {c} (h : ClausesPhrase I c)
    (hkeys : ∀ kind : Kind, kind.startsClause = true → continues kind = false) :
    Stops continues I := by
  cases h with
  | intro hfrom hwhere horder =>
    refine (hfrom.stops fun h => ?_).append ((hwhere.stops fun h => ?_).append
      (horder.stops fun h => ?_)) <;>
    · cases h
      exact stops_cons.mpr (hkeys _ (by decide))

/-- Nothing in clauses or behind a statement continues the list before it. -/
theorem ClausesPhrase.stops_expressions {I rest : Input σ} {c} (h : ClausesPhrase I c)
    (hstop : Stops Kind.continuesStatement rest) :
    Stops (Kind.continuesList Kind.continuesExpression) (I ++ rest) := by
  refine (h.stops fun kind hkind => ?_).append hstop.expressions
  simp only [Kind.startsClause, Bool.or_eq_true, decide_eq_true_eq] at hkind
  rcases hkind with (rfl | rfl) | rfl <;> decide

/-- Three optional steps, one after another. -/
theorem clauses_sound {d : Nat} {I rest : Input σ} {c}
    (hread : (clauses d).read I = .ok (c, rest)) :
    ∃ used, I = used ++ rest ∧ ClausesPhrase used c ∧ c.need ≤ d := by
  simp only [clauses, Step.bind_ok, Step.pure_ok] at hread
  obtain ⟨tables, _, hreadFrom, filter, _, hreadWhere, order, _, hreadOrder, rfl, rfl⟩ := hread
  obtain ⟨I, rfl, hfrom⟩ := optional_sound reads_fromClause hreadFrom
  obtain ⟨J, rfl, hwhere⟩ := optional_sound (reads_whereClause d) hreadWhere
  obtain ⟨K, rfl, horder⟩ := optional_sound reads_orderClause hreadOrder
  refine ⟨I ++ (J ++ K), by simp, ?_⟩
  cases hwhere with
  | absent => exact ⟨.intro hfrom .absent horder, by simp [Clauses.need]⟩
  | present h => exact ⟨.intro hfrom (.present h.1) horder, h.2⟩

/-- Each clause ends where the next one begins. -/
theorem clauses_complete {d : Nat} {I rest : Input σ} {c} (h : ClausesPhrase I c)
    (hneed : c.need ≤ d) (hstop : Stops Kind.continuesStatement rest) :
    (clauses d).read (I ++ rest) = .ok (c, rest) := by
  cases h with
  | @intro I J K tables filter order hfrom hwhere horder =>
    have hwhere' : OptionalPhrase (fun I w => WherePhrase I w ∧ w.node.need ≤ d) J filter := by
      cases hwhere with
      | absent => exact .absent
      | present h => exact .present ⟨h, hneed⟩
    -- a clause that is there begins with its own keyword, which continues nothing before it
    have hJ : ∀ {continues : Kind → Bool}, continues (.keyword "WHERE") = false →
        Stops continues J := fun hkey => hwhere.stops fun h => by
      cases h; exact stops_cons.mpr hkey
    have hK : ∀ {continues : Kind → Bool}, continues (.keyword "ORDER") = false →
        Stops continues K := fun hkey => horder.stops fun h => by
      cases h; exact stops_cons.mpr hkey
    simp only [clauses, Step.bind_ok, Step.pure_ok, List.append_assoc]
    refine ⟨tables, J ++ (K ++ rest), optional_complete reads_fromClause hfrom ?_ ?_,
      filter, K ++ rest, optional_complete (reads_whereClause d) hwhere' ?_ ?_,
      order, rest, optional_complete reads_orderClause horder hstop.names ?_, rfl, rfl⟩
    · exact (hJ (by decide)).append ((hK (by decide)).append hstop.names)
    · exact fromClause_absent ((hJ (by decide)).append ((hK (by decide)).append
        (hstop.keyword (by decide))))
    · exact (hK (by decide)).append hstop.expressions.item
    · exact whereClause_absent ((hK (by decide)).append (hstop.keyword (by decide)))
    · exact orderClause_absent (hstop.keyword (by decide))

/-! ## Spans and nodes -/

theorem FromPhrase.spans {I : Input σ} {x} (h : FromPhrase I x) : Spans I x.span := by
  cases h with
  | intro _ hspan => exact hspan

theorem WherePhrase.spans {I : Input σ} {x} (h : WherePhrase I x) : Spans I x.span := by
  cases h with
  | intro _ hspan => exact hspan

theorem OrderPhrase.spans {I : Input σ} {x} (h : OrderPhrase I x) : Spans I x.span := by
  cases h with
  | intro _ hspan => exact hspan

/-- Clauses span their tokens, if there are any. -/
theorem ClausesPhrase.span?_eq {I : Input σ} {c} (h : ClausesPhrase I c) :
    (c.span? = none ∧ I = [] ∧ ¬ Selective c) ∨ ∃ s, c.span? = some s ∧ Spans I s := by
  cases h with
  | intro hfrom hwhere horder =>
    cases hfrom with
    | absent =>
      cases hwhere with
      | absent =>
        cases horder with
        | absent => exact .inl ⟨rfl, rfl, by simp [Selective]⟩
        | present ho => exact .inr ⟨_, rfl, ho.spans⟩
      | present hw =>
        cases horder with
        | absent => exact .inr ⟨_, rfl, by simpa using hw.spans⟩
        | present ho => exact .inr ⟨_, rfl, hw.spans.append ho.spans⟩
    | present hf =>
      cases hwhere with
      | absent =>
        cases horder with
        | absent => exact .inr ⟨_, rfl, by simpa using hf.spans⟩
        | present ho => exact .inr ⟨_, rfl, hf.spans.append ho.spans⟩
      | present hw =>
        cases horder with
        | absent => exact .inr ⟨_, rfl, by simpa using hf.spans.append hw.spans⟩
        | present ho => exact .inr ⟨_, rfl, hf.spans.through ho.spans _⟩

/-- Something that clauses follow, up to the last clause that is there. -/
theorem ClausesPhrase.spans_behind {I J : Input σ} {c s} (h : ClausesPhrase J c)
    (hs : Spans I s) : Spans (I ++ J) ((c.span?.map s.through).getD s) := by
  rcases h.span?_eq with ⟨hnone, rfl, -⟩ | ⟨t, hsome, ht⟩
  · simpa [hnone] using hs
  · simpa [hsome] using hs.append ht

/-- If clauses count, they are kept with the span of all. -/
theorem ClausesPhrase.kept?_of_selective {I : Input σ} {c} (h : ClausesPhrase I c)
    (hc : Selective c) : ∃ s, Spans I s ∧ c.kept? = some ⟨s, c⟩ := by
  have hkept : c.kept? = c.span?.map fun span => ⟨span, c⟩ := by
    rw [Clauses.kept?, if_pos (by simpa [Selective] using hc)]
  rcases h.span?_eq with ⟨-, -, hnot⟩ | ⟨s, hsome, hs⟩
  · exact (hnot hc).elim
  · exact ⟨s, hs, by rw [hkept, hsome]; rfl⟩

theorem kept?_of_not_selective {c : Clauses (Span σ)} (hc : ¬ Selective c) : c.kept? = none := by
  rw [Clauses.kept?, if_neg (by simpa [Selective] using hc)]

end Grammar

end SqlScript

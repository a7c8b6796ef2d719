import SqlScript.Proofs.Grammar.Limits
import SqlScript.Proofs.Grammar.Unfinished

/-!
# Where the depth limit is exceeded

Where a rule finds operands too deep inside one another, what it has taken so far begins one of its
constructs, and it fails there whatever follows: the depth is looked at before the next token is
(`Rule.Exceeds`, `Step.Exceeds`). There is one lemma for each way of building rules and steps, and
one for each rule of the grammar that operands can be in, up to whole scripts (`script_exceeds`).
-/

namespace SqlScript

variable {σ α β : Type}

/-- An operand is looked for too deep behind what `starts` says is a start, whatever follows. -/
structure Rule.Exceeds (rule : Rule σ α) (starts : Input σ → Prop) : Prop where
  finds : ∀ {I mark}, rule.read I = .malformed ⟨.tooDeep, mark⟩ →
    ∃ used rest, I = used ++ rest ∧ starts used ∧
      ∀ J, rule.read (used ++ J) = .malformed (.atFront .tooDeep J)

/-- The same for steps. -/
structure Step.Exceeds (step : Step σ α) (starts : Input σ → Prop) : Prop where
  finds : ∀ {I mark}, step.read I = .error ⟨.tooDeep, mark⟩ →
    ∃ used rest, I = used ++ rest ∧ starts used ∧
      ∀ J, step.read (used ++ J) = .error (.atFront .tooDeep J)

/-- Some token in front is the next one. -/
theorem SameNext.of_ne_nil {used : Input σ} (h : used ≠ []) (I J : Input σ) :
    SameNext (used ++ I) (used ++ J) := by
  obtain ⟨first, more, rfl⟩ := List.exists_cons_of_ne_nil h
  rfl

/-- A rule that takes fixed tokens takes them whatever follows, not even the next one matters. -/
structure Rule.Fixed (rule : Rule σ α) : Prop where
  takes : ∀ {I x rest}, rule.read I = .matched x rest →
    ∃ used, I = used ++ rest ∧ used ≠ [] ∧ ∀ J, rule.read (used ++ J) = .matched x J

namespace Rule

/-- A token is taken whatever follows. -/
theorem fixed_token {accept : Kind → Option α} : (token accept : Rule σ _).Fixed := by
  refine ⟨fun h => ?_⟩
  obtain ⟨kind, m, rfl, haccept, hspan⟩ := token_matched.mp h
  exact ⟨[(kind, m)], rfl, List.cons_ne_nil _ _, fun _ =>
    token_matched.mpr ⟨kind, m, rfl, haccept, hspan⟩⟩

theorem Fixed.both {rule : Rule σ α} {other : Rule σ β} (hrule : rule.Fixed)
    (hother : other.Fixed) : (rule.both other).Fixed := by
  refine ⟨fun h => ?_⟩
  obtain ⟨middle, hfirst, hsecond⟩ := both_matched.mp h
  obtain ⟨used, rfl, hne, htakes⟩ := hrule.takes hfirst
  obtain ⟨used', rfl, -, htakes'⟩ := hother.takes hsecond
  refine ⟨used ++ used', by simp, by simp [hne], fun J => both_matched.mpr ?_⟩
  rw [List.append_assoc]
  exact ⟨_, htakes _, htakes' J⟩

end Rule

/-- A rule that is the same under all limits has nothing to do with them. -/
theorem Rule.never_tooDeep {rule : Rule σ α} (h : ∀ d, rule.Limits d rule) {I : Input σ} {mark} :
    rule.read I ≠ .malformed ⟨.tooDeep, mark⟩ := by
  rcases h (I.length + 1) I with ⟨_, -, hroom⟩ | ⟨-, hnot⟩
  · exact absurd hroom (Nat.not_succ_le_self _)
  · exact hnot mark

theorem Step.never_tooDeep {step : Step σ α} (h : ∀ d, step.Limits d step) {I : Input σ} {mark} :
    step.read I ≠ .error ⟨.tooDeep, mark⟩ := by
  rcases h (I.length + 1) I with ⟨_, -, hroom⟩ | ⟨-, hnot⟩
  · exact absurd hroom (Nat.not_succ_le_self _)
  · exact hnot mark

theorem Rule.Exceeds.never {rule : Rule σ α} {starts : Input σ → Prop}
    (h : ∀ d, rule.Limits d rule) : rule.Exceeds starts :=
  ⟨fun hread => (never_tooDeep h hread).elim⟩

theorem Step.Exceeds.never {step : Step σ α} {starts : Input σ → Prop}
    (h : ∀ d, step.Limits d step) : step.Exceeds starts :=
  ⟨fun hread => (never_tooDeep h hread).elim⟩

/-! ## Steps -/

namespace Step.Exceeds

variable {starts : Input σ → Prop} {step : Step σ α} {next : α → Step σ β}

theorem mono {starts' : Input σ → Prop} (h : step.Exceeds starts')
    (hstarts : ∀ {u}, starts' u → starts u) : step.Exceeds starts := by
  refine ⟨fun herror => ?_⟩
  obtain ⟨used, rest, rfl, hused, hfails⟩ := h.finds herror
  exact ⟨used, rest, rfl, hstarts hused, hfails⟩

/-- What fails behind a step has taken a token there, which tells where the step ends. -/
theorem bind (hstep : step.Exceeds starts) (hends : step.Ends)
    (hnext : ∀ {x used rest}, step.read (used ++ rest) = .ok (x, rest) →
      (next x).Exceeds fun u => u ≠ [] ∧ starts (used ++ u)) : (step >>= next).Exceeds starts := by
  refine ⟨fun {I mark} herror => ?_⟩
  rcases Step.bind_error.mp herror with herror | ⟨value, middle, hvalue, hdeep⟩
  · obtain ⟨used, rest, rfl, hstarts, hfails⟩ := hstep.finds herror
    exact ⟨used, rest, rfl, hstarts, fun J => Step.bind_error.mpr (.inl (hfails J))⟩
  · obtain ⟨used, rfl, htakes⟩ := hends.takes hvalue
    obtain ⟨used', rest, rfl, ⟨hne, hstarts⟩, hfails⟩ := (hnext hvalue).finds hdeep
    refine ⟨used ++ used', rest, by simp, hstarts, fun J => ?_⟩
    rw [List.append_assoc]
    exact Step.bind_error.mpr (.inr ⟨value, _, htakes (.of_ne_nil hne rest J), hfails J⟩)

/-- No operands can be in what follows the last step. -/
theorem last (hstep : step.Exceeds starts) (hnext : ∀ x d, (next x).Limits d (next x)) :
    (step >>= next).Exceeds starts := by
  refine ⟨fun {I mark} herror => ?_⟩
  rcases Step.bind_error.mp herror with herror | ⟨value, middle, -, hdeep⟩
  · obtain ⟨used, rest, rfl, hstarts, hfails⟩ := hstep.finds herror
    exact ⟨used, rest, rfl, hstarts, fun J => Step.bind_error.mpr (.inl (hfails J))⟩
  · exact (never_tooDeep (hnext value) hdeep).elim

theorem bind_fixed {rule : Rule σ α} {cause : Cause} (hdeep : ∀ d, rule.Limits d rule)
    (hfixed : rule.Fixed) (hcause : cause ≠ .tooDeep)
    (hnext : ∀ {x used rest}, rule.read (used ++ rest) = .matched x rest →
      (next x).Exceeds fun u => starts (used ++ u)) :
    (rule.require cause >>= next).Exceeds starts := by
  refine ⟨fun {I mark} herror => ?_⟩
  rcases Step.bind_error.mp herror with herror | ⟨x, middle, hx, hdeep'⟩
  · exact (never_tooDeep (fun d => (hdeep d).require hcause) herror).elim
  · obtain ⟨used, rfl, -, htakes⟩ := hfixed.takes (Rule.require_ok.mp hx)
    obtain ⟨used', rest, rfl, hstarts, hfails⟩ := (hnext (Rule.require_ok.mp hx)).finds hdeep'
    refine ⟨used ++ used', rest, by simp, hstarts, fun J => ?_⟩
    rw [List.append_assoc]
    exact Step.bind_error.mpr (.inr ⟨x, _, Rule.require_ok.mpr (htakes _), hfails J⟩)

end Step.Exceeds

/-! ## Rules -/

namespace Rule.Exceeds

variable {starts starts' : Input σ → Prop} {rule : Rule σ α}

theorem mono (h : rule.Exceeds starts') (hstarts : ∀ {u}, starts' u → starts u) :
    rule.Exceeds starts := by
  refine ⟨fun hread => ?_⟩
  obtain ⟨used, rest, rfl, hused, hfails⟩ := h.finds hread
  exact ⟨used, rest, rfl, hstarts hused, hfails⟩

theorem map {f : α → β} (h : rule.Exceeds starts) : (rule.map f).Exceeds starts := by
  refine ⟨fun hread => ?_⟩
  obtain ⟨used, rest, rfl, hused, hfails⟩ := h.finds (map_malformed.mp hread)
  exact ⟨used, rest, rfl, hused, fun J => map_malformed.mpr (hfails J)⟩

/-- That the first rule finds nothing has to show in what the other one has taken. -/
theorem orElse {other : Rule σ α} (h : rule.Exceeds fun u => u ≠ [] ∧ starts u)
    (habsent : ∀ {used rest J}, used ≠ [] → rule.read (used ++ rest) = .absent →
      rule.read (used ++ J) = .absent)
    (hother : other.Exceeds fun u => u ≠ [] ∧ starts u) :
    (rule <|> other).Exceeds fun u => u ≠ [] ∧ starts u := by
  refine ⟨fun hread => ?_⟩
  rcases orElse_malformed.mp hread with hread | ⟨hnot, hread⟩
  · obtain ⟨used, rest, rfl, hstarts, hfails⟩ := h.finds hread
    exact ⟨used, rest, rfl, hstarts, fun J => orElse_malformed.mpr (.inl (hfails J))⟩
  · obtain ⟨used, rest, rfl, hstarts, hfails⟩ := hother.finds hread
    exact ⟨used, rest, rfl, hstarts, fun J =>
      orElse_malformed.mpr (.inr ⟨habsent hstarts.1 hnot, hfails J⟩)⟩

/-- No operands can be in what the other rule finds. -/
theorem orElse_last {other : Rule σ α} (h : rule.Exceeds starts)
    (hother : ∀ d, other.Limits d other) : (rule <|> other).Exceeds starts := by
  refine ⟨fun hread => ?_⟩
  rcases orElse_malformed.mp hread with hread | ⟨-, hread⟩
  · obtain ⟨used, rest, rfl, hstarts, hfails⟩ := h.finds hread
    exact ⟨used, rest, rfl, hstarts, fun J => orElse_malformed.mpr (.inl (hfails J))⟩
  · exact (never_tooDeep hother hread).elim

/-- What fails behind a rule has taken a token there, which tells where the rule ends. -/
theorem andThen {next : α → Step σ β} (hrule : rule.Exceeds starts) (hends : rule.Ends)
    (hnext : ∀ {x used rest}, rule.read (used ++ rest) = .matched x rest →
      (next x).Exceeds fun u => u ≠ [] ∧ starts (used ++ u)) :
    (rule.andThen next).Exceeds starts := by
  refine ⟨fun hread => ?_⟩
  rcases andThen_malformed.mp hread with h | ⟨value, middle, hvalue, h⟩
  · obtain ⟨used, rest, rfl, hstarts, hfails⟩ := hrule.finds h
    exact ⟨used, rest, rfl, hstarts, fun J => andThen_malformed.mpr (.inl (hfails J))⟩
  · obtain ⟨used, rfl, htakes⟩ := hends.takes hvalue
    obtain ⟨used', rest, rfl, ⟨hne, hstarts⟩, hfails⟩ := (hnext hvalue).finds h
    refine ⟨used ++ used', rest, by simp, hstarts, fun J => ?_⟩
    rw [List.append_assoc]
    exact andThen_malformed.mpr (.inr ⟨value, _, htakes (.of_ne_nil hne rest J), hfails J⟩)

/-- What follows fixed tokens may fail at once, without taking a token of its own. -/
theorem andThen_fixed {next : α → Step σ β} (hdeep : ∀ d, rule.Limits d rule)
    (hfixed : rule.Fixed) (hnext : ∀ {x used rest}, rule.read (used ++ rest) = .matched x rest →
      (next x).Exceeds fun u => starts (used ++ u)) :
    (rule.andThen next).Exceeds fun u => u ≠ [] ∧ starts u := by
  refine ⟨fun hread => ?_⟩
  rcases andThen_malformed.mp hread with h | ⟨value, middle, hvalue, h⟩
  · exact (never_tooDeep hdeep h).elim
  · obtain ⟨used, rfl, hne, htakes⟩ := hfixed.takes hvalue
    obtain ⟨used', rest, rfl, hstarts, hfails⟩ := (hnext hvalue).finds h
    refine ⟨used ++ used', rest, by simp, ⟨by simp [hne], hstarts⟩, fun J => ?_⟩
    rw [List.append_assoc]
    exact andThen_malformed.mpr (.inr ⟨value, _, htakes _, hfails J⟩)

theorem optional (h : rule.Exceeds starts) : rule.optional.Exceeds starts := by
  refine ⟨fun herror => ?_⟩
  obtain ⟨used, rest, rfl, hused, hfails⟩ := h.finds (optional_error.mp herror)
  exact ⟨used, rest, rfl, hused, fun J => optional_error.mpr (hfails J)⟩

/-- What is missing is not too deep. -/
theorem requireOr {failure : Input σ → Failure σ} (h : rule.Exceeds starts)
    (hfailure : ∀ I, (failure I).cause ≠ .tooDeep) : (rule.requireOr failure).Exceeds starts := by
  refine ⟨fun {I mark} herror => ?_⟩
  rcases requireOr_error.mp herror with hread | ⟨-, heq⟩
  · obtain ⟨used, rest, rfl, hused, hfails⟩ := h.finds hread
    exact ⟨used, rest, rfl, hused, fun J => requireOr_error.mpr (.inl (hfails J))⟩
  · exact (hfailure I (congrArg Failure.cause heq)).elim

theorem require {cause : Cause} (h : rule.Exceeds starts) (hcause : cause ≠ .tooDeep) :
    (rule.require cause).Exceeds starts :=
  h.requireOr fun _ => hcause

end Rule.Exceeds

/-! ## Chains -/

namespace Chained

variable {γ : Type} {accept : Kind → Option β} {phrase : Input σ → α → Prop}
  {chain : Input σ → Prop} {phrase' : Input σ → γ → Prop}
  (h : Chained accept phrase chain phrase') {item : Rule σ α}
  {missing : Spanned (Span σ) β → Cause} (hitem : item.Exceeds (Viable phrase))
  (hends : item.Ends)
  (hused : ∀ {I x rest}, item.read (I ++ rest) = .matched x rest → phrase I x)
  (hmissing : ∀ x, missing x ≠ .tooDeep)
include h hitem hends hused hmissing

/-- By induction on the links, with the chain that was read before each of them. -/
theorem exceeds_links {before : Input σ} (hbefore : chain before) :
    (item.links (Rule.token accept) missing).Exceeds
      fun u => u ≠ [] ∧ Viable phrase' (before ++ u) := by
  refine ⟨fun {I mark} herror => ?_⟩
  change Rule.readLinks item (Rule.token accept) missing I = _ at herror
  show ∃ used rest, _ ∧ _ ∧ ∀ J, Rule.readLinks item (Rule.token accept) missing (used ++ J) = _
  -- on the links, with all that was read before a link as the chain before it
  fun_induction Rule.readLinks item (Rule.token accept) missing I generalizing before with
  | case1 => cases herror
  | case2 I failure hfailure => exact (Rule.token_ne_malformed hfailure).elim
  | case3 I link middle hlink failure hvalue =>
    cases herror
    obtain ⟨kind, m, rfl, haccept, hspan⟩ := Rule.token_matched.mp hlink
    obtain ⟨used, rest, rfl, hstarts, hfails⟩ := (hitem.require (hmissing link)).finds hvalue
    refine ⟨(kind, m) :: used, rest, rfl, ⟨List.cons_ne_nil _ _, ?_⟩, fun J => ?_⟩
    · exact h.inside m hbefore haccept hstarts
    · have hlink' : (Rule.token accept).read ((kind, m) :: used ++ J) = .matched link (used ++ J) :=
        Rule.token_matched.mpr ⟨kind, m, rfl, haccept, hspan⟩
      rw [Rule.readLinks_eq, hlink']
      simp only [hfails J]
  | case4 I link middle hlink value rest hvalue failure hmore ih =>
    cases herror
    obtain ⟨kind, m, rfl, haccept, hspan⟩ := Rule.token_matched.mp hlink
    obtain ⟨used, rfl, htakes⟩ := hends.takes (Rule.require_ok.mp hvalue)
    have hx := hused (Rule.require_ok.mp hvalue)
    obtain ⟨used', rest', rfl, ⟨hne, hstarts⟩, hfails⟩ :=
      ih (h.link (m := m) hbefore haccept hx) hmore
    rw [List.append_assoc] at hstarts
    refine ⟨(kind, m) :: (used ++ used'), rest', by simp, ⟨List.cons_ne_nil _ _, hstarts⟩,
      fun J => ?_⟩
    have hlink' : (Rule.token accept).read ((kind, m) :: (used ++ used') ++ J) =
        .matched link (used ++ (used' ++ J)) :=
      Rule.token_matched.mpr ⟨kind, m, by simp, haccept, hspan⟩
    have hvalue' : (item.require (missing link)).read (used ++ (used' ++ J)) =
        .ok (value, used' ++ J) := Rule.require_ok.mpr (htakes (.of_ne_nil hne rest' J))
    rw [Rule.readLinks_eq, hlink']
    simp only [hvalue', hfails J]
  | case5 => cases herror

/-- In its first item or in a later one, a chain fails behind what begins it. -/
theorem exceeds : (item.chain (Rule.token accept) missing).Exceeds (Viable phrase') :=
  (hitem.mono h.begins).andThen hends fun hread =>
    (h.exceeds_links hitem hends hused hmissing (h.single (hused hread))).last fun _ _ => .pure _

end Chained

/-! ## The grammar

What was taken can be completed with one more operand inside the ones that there are. -/

namespace Grammar

variable {d : Nat}

theorem OperandWithin.mono {e : Nat} {I : Input σ} {x} (h : OperandWithin d I x) (hle : d ≤ e) :
    OperandWithin e I x := ⟨h.1, Nat.le_trans h.2 hle⟩

theorem ExpressionWithin.mono {e : Nat} {I : Input σ} {x} (h : ExpressionWithin d I x)
    (hle : d ≤ e) : ExpressionWithin e I x := ⟨h.1, Nat.le_trans h.2 hle⟩

section Inner

variable (h : (operand d : Rule σ _).Exceeds (Viable (OperandWithin (d + 1))))
include h

theorem exceeds_expression_of :
    (expression d : Rule σ _).Exceeds (Viable (ExpressionWithin (d + 1))) :=
  (chained_operands.exceeds h (predictive_operand d).toEnds
    (fun hread => ((reads_operand d).used hread).mono (Nat.le_succ d)) (fun _ => by nofun)).map

theorem exceeds_expressions_of : ((expression d).commaList .expression : Rule σ _).Exceeds
    (Viable (ListPhrase (ExpressionWithin (d + 1)))) :=
  (chained_commas.exceeds (exceeds_expression_of h) (predictive_expression d).toEnds
    (fun hread => ((reads_expression d).used hread).mono (Nat.le_succ d)) (fun _ => by nofun)).map

/-- NOT has been taken, and its operand begins to be. -/
theorem exceeds_negation : (negation (operand d) : Rule σ _).Exceeds
    fun u => u ≠ [] ∧ Viable (OperandWithin (d + 2)) u := by
  refine .andThen_fixed (fun _ => Rule.limits_token) Rule.fixed_token fun hread => ?_
  obtain ⟨m, rfl⟩ := Rule.exactly_used hread
  exact ((h.mono (viable_not m)).requireOr fun _ => by nofun).last fun _ _ => .pure _

/-- The name and the parenthesis have been taken. -/
theorem exceeds_call : (call (expression d) : Rule σ _).Exceeds
    fun u => u ≠ [] ∧ Viable (OperandWithin (d + 2)) u := by
  refine .andThen_fixed (fun _ => Rule.limits_token.both Rule.limits_token)
    (Rule.fixed_token.both Rule.fixed_token) fun {x used rest} hread => ?_
  obtain ⟨middle, hname, hopen⟩ := Rule.both_matched.mp hread
  obtain ⟨m₁, heq, -⟩ := Rule.name_matched.mp hname
  obtain ⟨m₂, rfl, -⟩ := Rule.exactly_matched.mp hopen
  obtain rfl : used = [_, _] := List.append_cancel_right (heq.trans rfl)
  refine ((exceeds_expressions_of h).mono (viable_call _ m₁ m₂)).optional.last fun _ _ => ?_
  exact (Rule.limits_token.require (by nofun)).bind fun _ => .pure _

end Inner

variable [Nonempty σ]

/-- An operand that is too deep for the limit would fit in with one more. -/
theorem exceeds_operand (d : Nat) :
    (operand d : Rule σ _).Exceeds (Viable (OperandWithin (d + 1))) := by
  induction d with
  | zero =>
    obtain ⟨m⟩ := ‹Nonempty σ›
    exact ⟨fun {I _} _ => ⟨[], I, rfl, viable_operand (Nat.le_refl 1) m, fun _ => rfl⟩⟩
  | succ d ih =>
    have hatom : ∀ e, (column <|> literal : Rule σ _).Limits e (column <|> literal) := fun _ =>
      limits_columnRef.map.orElse Rule.limits_token.map
    exact ((exceeds_negation ih).orElse
      (fun hne => Rule.predictive_token.absent_andThen (.of_ne_nil hne _ _))
      ((exceeds_call ih).orElse_last hatom)).mono And.right

theorem exceeds_expression (d : Nat) :
    (expression d : Rule σ _).Exceeds (Viable (ExpressionWithin (d + 1))) :=
  exceeds_expression_of (exceeds_operand d)

theorem exceeds_expressions (d : Nat) : ((expression d).commaList .expression : Rule σ _).Exceeds
    (Viable (ListPhrase (ExpressionWithin (d + 1)))) :=
  exceeds_expressions_of (exceeds_operand d)

theorem exceeds_whereClause (d : Nat) : (whereClause d : Rule σ _).Exceeds
    fun u => u ≠ [] ∧ Viable (fun I w => WherePhrase I w ∧ w.node.need ≤ d + 1) u := by
  refine .andThen_fixed (fun _ => Rule.limits_token) Rule.fixed_token fun hread => ?_
  obtain ⟨m, rfl⟩ := Rule.exactly_used hread
  exact (((exceeds_expression d).mono (viable_where m)).require (by nofun)).last fun _ _ => .pure _

/-- Only WHERE has operands, so the clauses count. -/
theorem exceeds_clauses (d : Nat) : (clauses d : Step σ _).Exceeds
    fun u => u ≠ [] ∧ Viable (SelectiveWithin (d + 1)) u := by
  refine .bind (.never fun _ => limits_fromClause.optional) predictive_fromClause.optional
    fun {tables used rest} hfrom => ?_
  have hphrase := reads_fromClause.optional_used hfrom
  refine ((exceeds_whereClause d).mono fun ⟨hne, hu⟩ => ?_).optional.last fun _ _ =>
    limits_orderClause.optional.bind fun _ => .pure _
  exact ⟨hne, by simp [hne], viable_selective hphrase hu⟩

/-! ## Statements and scripts -/

/-- Either the list is too deep, or it is read and the condition is. -/
theorem exceeds_selectStatement (d : Nat) : (selectStatement d : Rule σ _).Exceeds
    fun u => u ≠ [] ∧ Viable (StatementWithin (d + 1)) u := by
  refine .andThen_fixed (fun _ => Rule.limits_token) Rule.fixed_token fun hread => ?_
  obtain ⟨m, rfl⟩ := Rule.exactly_used hread
  refine .bind ((exceeds_expressions d).mono (viable_select m)).optional
    (predictive_expression d).commaList.optional fun {found I rest} hlist => ?_
  cases found with
  | none => exact .never fun _ => .pure _
  | some list =>
    have hphrase := (localizes_expressions d).reads.optional_used hlist
    cases hphrase with
    | present hlist =>
      have hlist' : CommaPhrase (ExpressionWithin (d + 1)) I _ :=
        commaPhrase_within.mpr ((commaPhrase_within.mp hlist).imp_right Nat.le_succ_of_le)
      refine ((exceeds_clauses d).mono fun ⟨hne, hu⟩ => ⟨hne, ?_⟩).last fun _ _ => .pure _
      rw [← List.append_assoc]
      refine hu.within fun ⟨hc, _, hneed⟩ => ?_
      obtain ⟨s, hs⟩ := select_within m hlist' hc hneed
      exact .of_phrase hs

/-- All before the values has been taken. -/
theorem exceeds_insertStatement (d : Nat) : (insertStatement d : Rule σ _).Exceeds
    fun u => u ≠ [] ∧ Viable (StatementWithin (d + 1)) u := by
  refine .andThen_fixed (fun _ => Rule.limits_token) Rule.fixed_token fun hread => ?_
  obtain ⟨m₁, rfl⟩ := Rule.exactly_used hread
  refine .bind_fixed (fun _ => Rule.limits_token) Rule.fixed_token (by nofun) fun hread => ?_
  obtain ⟨m₂, rfl⟩ := Rule.exactly_used hread
  refine .bind (.never fun _ => limits_tableRef.require (by nofun))
    predictive_tableRef.toEnds.require fun {table I rest} hread => ?_
  have hinto := reads_tableRef.used (Rule.require_ok.mp hread)
  refine .bind_fixed (fun _ => Rule.limits_token) Rule.fixed_token (by nofun) fun hread => ?_
  obtain ⟨m₃, rfl⟩ := Rule.exactly_used hread
  refine .bind (.never fun _ => limits_columnRef.commaList.require (by nofun))
    predictive_columnRef.commaList.toEnds.require fun {columns J rest} hread => ?_
  have hcolumns := localizes_columns.reads.used (Rule.require_ok.mp hread)
  refine .bind_fixed (fun _ => Rule.limits_token) Rule.fixed_token (by nofun) fun hread => ?_
  obtain ⟨m₄, rfl⟩ := Rule.exactly_used hread
  refine .bind_fixed (fun _ => Rule.limits_token) Rule.fixed_token (by nofun) fun hread => ?_
  obtain ⟨m₅, rfl⟩ := Rule.exactly_used hread
  refine .bind_fixed (fun _ => Rule.limits_token) Rule.fixed_token (by nofun) fun hread => ?_
  obtain ⟨m₆, rfl⟩ := Rule.exactly_used hread
  refine (((exceeds_expressions d).mono fun hK => ?_).require (by nofun)).last fun _ _ =>
    (Rule.limits_token.require (by nofun)).bind fun _ => .pure _
  have hinside := viable_insert m₁ m₂ m₃ m₄ m₅ m₆ hinto hcolumns hK
  exact ⟨by simp, by simp, hinside.of_isPrefix (by simp)⟩

theorem exceeds_deleteStatement (d : Nat) : (deleteStatement d : Rule σ _).Exceeds
    fun u => u ≠ [] ∧ Viable (StatementWithin (d + 1)) u := by
  refine .andThen_fixed (fun _ => Rule.limits_token) Rule.fixed_token fun hread => ?_
  obtain ⟨m, rfl⟩ := Rule.exactly_used hread
  refine .bind (.never fun _ => .peek) .peek fun {found used rest} hread => ?_
  obtain rfl : used = [] := List.append_cancel_right (Step.peek_ok.mp hread).2
  refine ((exceeds_clauses d).mono fun ⟨hne, hu⟩ => ⟨hne, ?_⟩).last fun _ _ => .pure _
  refine hu.within fun h => ?_
  obtain ⟨s, hs⟩ := delete_within m h
  exact .of_phrase hs

/-- A statement that is too deep for the limit would fit in with one operand more. -/
theorem exceeds_statement (d : Nat) : (statement d : Rule σ _).Exceeds
    fun u => u ≠ [] ∧ Viable (StatementWithin (d + 1)) u := by
  have habsent : ∀ {α β : Type} {accept : Kind → Option α} {next : _ → Step σ β}
      {used rest J : Input σ}, used ≠ [] →
      ((Rule.token accept).andThen next).read (used ++ rest) = .absent →
        ((Rule.token accept).andThen next).read (used ++ J) = .absent := fun hne =>
    Rule.predictive_token.absent_andThen (.of_ne_nil hne _ _)
  exact .orElse (.never fun _ => limits_useStatement) habsent
    ((exceeds_selectStatement d).orElse habsent
      ((exceeds_insertStatement d).orElse habsent (exceeds_deleteStatement d)))

/-- A script that fails for its depth has begun as one, and fails there whatever follows. -/
theorem script_exceeds {I : Input σ} {mark} (h : (script d I).result = .error ⟨.tooDeep, mark⟩) :
    ∃ used rest, I = used ++ rest ∧ used ≠ [] ∧ Viable ScriptPhrase used ∧
      ∀ J, (script d (used ++ J)).result = .error (.atFront .tooDeep J) := by
  fun_induction script d I with
  | case1 => cases h
  | case2 m I ih =>
    obtain ⟨used, rest, rfl, -, hstarts, hfails⟩ := ih h
    refine ⟨(.symbol ";", m) :: used, rest, rfl, List.cons_ne_nil _ _, ?_, fun J => ?_⟩
    · exact hstarts.cons fun hphrase => .of_phrase (.semicolon hphrase)
    · rw [List.cons_append, script_semicolon]
      exact hfails J
  | case3 kind m I hkind hread => cases h
  | case4 kind m I hkind failure hread =>
    cases h
    obtain ⟨used, rest, heq, ⟨hne, hstarts⟩, hfails⟩ := (exceeds_statement d).finds hread
    obtain ⟨first, used, rfl⟩ := List.exists_cons_of_ne_nil hne
    cases heq
    refine ⟨_ :: used, rest, rfl, hne, hstarts.mono fun hphrase => ?_, fun J => ?_⟩
    · exact .of_phrase (by simpa using ScriptPhrase.cons hphrase.1 .nil)
    · rw [List.cons_append, script_cons, if_neg hkind, ← List.cons_append, hfails J]
  | case5 kind m I hkind draft rest hread failure hs =>
    cases h
    cases statement_error hread hs
  | case6 kind m I hkind draft rest hread s hs ih =>
    have hfailure : (script d rest).result = .error ⟨.tooDeep, mark⟩ := by
      cases hresult : (script d rest).result with
      | ok ss => simp [Reading.prepend, hresult, Except.map] at h
      | error failure => simpa [Reading.prepend, hresult, Except.map] using h
    obtain ⟨used, heq, hphrase, hneed⟩ := statement_sound hread hs
    obtain ⟨used', rest', rfl, hne, hstarts, hfails⟩ := ih hfailure
    refine ⟨used ++ used', rest', by simp [heq], by simp [hne], ?_, fun J => ?_⟩
    · exact hstarts.within fun hmore => .of_phrase (.cons hphrase hmore)
    · -- what was taken next could be part of a script, so it is none of this statement
      obtain ⟨more, _, hmore⟩ := hstarts
      have hstop : Stops Kind.continuesStatement (used' ++ more ++ []) := hmore.stops .nil
      rw [List.append_nil] at hstop
      obtain ⟨dropped, hcomplete⟩ := statement_complete hphrase hneed
      have hread' := hcomplete _ (SameNext.stops (.of_ne_nil hne more J) hstop)
      rw [List.append_assoc, script_of_statement hread' rfl, Reading.behind, hfails J]
      rfl

end Grammar

end SqlScript

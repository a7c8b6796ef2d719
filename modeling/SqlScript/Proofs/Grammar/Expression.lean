import SqlScript.Proofs.Expression.Yard
import SqlScript.Proofs.Grammar.Need
import SqlScript.Proofs.Grammar.Reads

/-!
# Expressions are read by their grammar

With a depth limit `d`, the rules of operands and expressions read the phrases that need at most
`d` (`reads_operand`, `reads_expression`). Both halves are by induction on the limit, which goes
down wherever the rules recur.
-/

namespace SqlScript.Grammar

variable {σ : Type}

/-- An operand or expression within a depth limit. -/
def OperandWithin (d : Nat) (I : Input σ) (x : Operand (Span σ)) : Prop :=
  OperandPhrase I x ∧ x.need ≤ d

/-- An expression that a limit allows. -/
def ExpressionWithin (d : Nat) (I : Input σ) (e : Expr (Span σ)) : Prop :=
  ExpressionPhrase I e ∧ e.need ≤ d

/-! ## Chains -/

/-- The last operand of a chain. -/
def lastOperand {α β : Type} (first : Operand α) (links : List (β × Operand α)) : Operand α :=
  (links.getLast?.map Prod.snd).getD first

@[simp] theorem lastOperand_nil {α β : Type} (first : Operand α) :
    lastOperand first ([] : List (β × Operand α)) = first := rfl

/-- Further links leave the first operand behind. -/
theorem lastOperand_cons {α β : Type} (first : Operand α) (link : β × Operand α)
    (links : List (β × Operand α)) :
    lastOperand first (link :: links) = lastOperand link.2 links := by
  simp only [lastOperand, List.getLast?_cons]
  cases links.getLast? <;> rfl

section Chain

variable {operand : Rule σ (Operand (Span σ))} {d : Nat}

/-- By induction on the links that were read. -/
theorem operatorLinks_sound (h : operand.Reads (OperandWithin d) Kind.continuesOperand)
    {missing : Spanned (Span σ) Operator → Cause} {before I rest : Input σ} {first links}
    (hfirst : OperandPhrase before first)
    (hlinks : (operand.links operator missing).read I = .ok (links, rest)) :
    ∃ used, I = used ++ rest ∧ ChainPhrase (before ++ used) first links ∧
      ∀ l ∈ links, l.2.need ≤ d := by
  induction links generalizing before I first with
  | nil =>
    rcases Rule.links_ok.mp hlinks with ⟨-, rfl, -⟩ | ⟨_, _, _, _, _, heq, -⟩
    · exact ⟨[], rfl, by simpa using .single hfirst, by simp⟩
    · cases heq
  | cons link links ih =>
    rcases Rule.links_ok.mp hlinks with ⟨heq, -⟩ | ⟨o, middle, x, after, more, heq, hoperator, hx,
      hmore⟩
    · cases heq
    · cases heq
      obtain ⟨kind, m, rfl, hkind, hspan⟩ := Rule.token_matched.mp hoperator
      obtain ⟨used, rfl, hphrase, hneed⟩ := h.sound hx
      obtain ⟨used', rfl, hchain, hall⟩ := ih hphrase hmore
      obtain ⟨span, node⟩ := o
      cases hspan
      exact ⟨(kind, m) :: (used ++ used'), by simp, .link hfirst hkind hchain,
        List.forall_mem_cons.mpr ⟨hneed, hall⟩⟩

/-- A chain is read up to where neither an operator follows nor its last operand goes on, if its
operands are read up to where they do not go on. -/
theorem chain_complete {goesOn : Operand (Span σ) → Kind → Bool}
    (hoperator : ∀ x {kind o}, Operator.ofKind? kind = some o → goesOn x kind = false)
    (missing : Spanned (Span σ) Operator → Cause) {I rest : Input σ} {first links}
    (hchain : ChainPhrase I first links)
    (hread : ∀ x ∈ first :: links.map Prod.snd, ∀ {J rest}, OperandPhrase J x →
      Stops (goesOn x) rest → operand.read (J ++ rest) = .matched x rest)
    (hstop : Stops (fun kind => (Operator.ofKind? kind).isSome) rest)
    (hlast : Stops (goesOn (lastOperand first links)) rest) :
    (operand.chain operator missing).read (I ++ rest) = .matched (first, links) rest := by
  rw [Rule.chain_matched]
  induction links generalizing I first with
  | nil =>
    cases hchain with
    | single hphrase =>
      refine ⟨rest, hread first (by simp) hphrase hlast, ?_⟩
      refine Rule.links_ok.mpr (.inl ⟨rfl, rfl, Rule.token_absent.mpr fun next hnext => ?_⟩)
      simpa using hstop next hnext
  | cons link links ih =>
    cases hchain with
    | @link I kind m o J _ y _ hphrase hkind hmore =>
      obtain ⟨hfirst, hlinks⟩ := List.forall_mem_cons.mp hread
      rw [lastOperand_cons] at hlast
      obtain ⟨middle, hx, hrest⟩ := ih hmore hlinks hlast
      -- the operand stops at its own operator, and the rest of the chain is read behind that
      refine ⟨(kind, m) :: (J ++ rest), ?_, ?_⟩
      · rw [List.append_assoc]
        exact hfirst hphrase (stops_cons.mpr (hoperator _ hkind))
      · exact Rule.links_ok.mpr (.inr ⟨_, _, _, _, _, rfl,
          Rule.token_matched.mpr ⟨kind, m, rfl, hkind, rfl⟩, hx, hrest⟩)

/-- An expression is a chain in the order that precedence asks for. -/
theorem expressionOf_matched {I rest : Input σ} {e} :
    (expressionOf operand).read I = .matched e rest ↔
      ∃ first links, ∃ t : Arrangement (Span σ),
        (operand.chain operator fun op => .operandAfter op.node).read I =
          .matched (first, links) rest ∧
        t.Nested ∧ t.inorder = chainItems first links ∧
        .postfixed (chainSpan first links) t.postorder = e := by
  rw [expressionOf, Rule.map_matched]
  constructor
  · rintro ⟨⟨first, links⟩, hchain, rfl⟩
    obtain ⟨t, hnested, hinorder, hpost⟩ := Yard.postfixed_eq_postorder first links
    exact ⟨first, links, t, hchain, hnested, hinorder, by simp only [hpost]⟩
  · rintro ⟨first, links, t, hchain, hnested, hinorder, rfl⟩
    obtain ⟨u, hnested', hinorder', hpost⟩ := Yard.postfixed_eq_postorder first links
    refine ⟨(first, links), hchain, ?_⟩
    show Expr.postfixed (chainSpan first links) (Yard.postfixed first links) = _
    rw [hpost, hnested.unique hnested' (hinorder.trans hinorder'.symm)]

/-- The arrangement of a chain is the one by precedence, as the yard makes it. -/
theorem reads_expressionOf (h : operand.Reads (OperandWithin d) Kind.continuesOperand) :
    (expressionOf operand).Reads (ExpressionWithin d) Kind.continuesExpression where
  sound {I e rest} hread := by
    obtain ⟨first, links, t, hchain, hnested, hinorder, rfl⟩ := expressionOf_matched.mp hread
    obtain ⟨middle, hfirst, hlinks⟩ := Rule.chain_matched.mp hchain
    obtain ⟨used, rfl, hphrase, hneed⟩ := h.sound hfirst
    obtain ⟨used', rfl, hchain, hall⟩ := operatorLinks_sound h hphrase hlinks
    exact ⟨used ++ used', by simp, .intro hchain hchain.spans hnested hinorder,
      (need_postfixed_le hinorder).mpr ⟨hneed, hall⟩⟩
  complete {I e rest} he hstop := by
    obtain ⟨hphrase, hneed⟩ := he
    cases hphrase with
    | @intro I first links span t hchain hspan hnested hinorder =>
      have hoperands : ∀ x ∈ first :: links.map Prod.snd, x.need ≤ d := by
        rw [List.forall_mem_cons, List.forall_mem_map]
        exact (need_postfixed_le hinorder).mp hneed
      have hoperator : ∀ (_ : Operand (Span σ)) {kind o}, Operator.ofKind? kind = some o →
          kind.continuesOperand = false := fun _ => Kind.continuesOperand_of_operator
      have hread := chain_complete hoperator (fun op => .operandAfter op.node) hchain
        (fun x hx _ _ hx' => h.complete ⟨hx', hoperands x hx⟩) hstop.operator hstop.operand
      rw [hspan.unique hchain.spans]
      exact expressionOf_matched.mpr ⟨first, links, t, hread, hnested, hinorder, rfl⟩

end Chain

/-! ## Operands -/

theorem columnRef_absent {I : Input σ} :
    (columnRef : Rule σ _).read I = .absent ↔
      ∀ first ∈ I.head?, ∀ text, first.1 ≠ .name text := by
  simp [columnRef, qualified]

/-- No operand begins here, and there was room to look for one. -/
theorem operand_absent {d : Nat} {I : Input σ} :
    (operand d : Rule σ _).read I = .absent ↔ 1 ≤ d ∧ Stops Kind.startsOperand I := by
  cases d with
  | zero => simp [operand]
  | succ d =>
    simp only [operand, Rule.read_delay, Rule.orElse_absent, negation, call, column, literal,
      Rule.andThen_absent, Rule.map_absent, Rule.both_absent, Rule.keyword_absent,
      Rule.token_absent, columnRef_absent]
    cases I with
    | nil => simp [Stops]
    | cons first more =>
      obtain ⟨kind, m⟩ := first
      cases kind <;> simp [Kind.startsOperand, literalOf]

/-- With room for an operand, an expression is absent where no operand begins. -/
theorem expression_absent {d : Nat} {I : Input σ} :
    (expression d : Rule σ _).read I = .absent ↔ 1 ≤ d ∧ Stops Kind.startsOperand I := by
  rw [expression, expressionOf, Rule.map_absent, Rule.chain_absent, operand_absent]

/-- NOT begins nothing else. -/
theorem negation_absent {inner : Rule σ (Operand (Span σ))} {I : Input σ} :
    (negation inner).read I = .absent ↔ ∀ first ∈ I.head?, first.1 ≠ .keyword "NOT" := by
  simp [negation]

/-- A name that no parenthesis follows begins no call. -/
theorem call_absent_of_name {argument : Rule σ (Expr (Span σ))} {text : String} {m : σ}
    {rest : Input σ} :
    (call argument).read ((.name text, m) :: rest) = .absent ↔
      ∀ first ∈ rest.head?, first.1 ≠ .symbol "(" := by
  rw [call, Rule.andThen_absent, Rule.both_absent, ← Rule.symbol_absent]
  constructor
  · rintro (habsent | ⟨_, _, hname, habsent⟩)
    · exact (Rule.name_absent.mp habsent _ rfl text rfl).elim
    · obtain ⟨_, heq, -⟩ := Rule.name_matched.mp hname
      cases heq
      exact habsent
  · intro habsent
    exact .inr ⟨⟨.single m, text⟩, rest, Rule.name_matched.mpr ⟨m, rfl, rfl⟩, habsent⟩

theorem call_absent_of_qualified {argument : Rule σ (Expr (Span σ))} {I rest : Input σ} {q}
    (h : QualifiedPhrase I q) (hstop : Stops Kind.continuesOperand rest) :
    (call argument).read (I ++ rest) = .absent := by
  cases h with
  | plain =>
    refine call_absent_of_name.mpr fun first hfirst => ?_
    have := hstop first hfirst
    simp_all [Kind.continuesOperand]
  | dotted => exact call_absent_of_name.mpr (by simp)

theorem negation_absent_of_qualified {inner : Rule σ (Operand (Span σ))} {I rest : Input σ} {q}
    (h : QualifiedPhrase I q) : (negation inner).read (I ++ rest) = .absent := by
  cases h <;> simp [negation_absent]

/-- Literals are told from the other operands by their first token. -/
theorem literalOf_some {kind : Kind} {value : Atom} (h : literalOf kind = some value) :
    kind ≠ .keyword "NOT" ∧ ∀ text, kind ≠ .name text := by
  refine ⟨?_, fun text => ?_⟩ <;> rintro rfl <;> simp [literalOf] at h

theorem literalOf_ne_column (kind : Kind) (ref : ColumnRef) :
    literalOf kind ≠ some (.column ref) := by
  rw [literalOf.eq_def]
  split <;> nofun

/-- The limit is the same for all of a list. -/
theorem commaPhrase_within {d : Nat} {I : Input σ} {args : List (Expr (Span σ))} :
    CommaPhrase (ExpressionWithin d) I args ↔
      CommaPhrase ExpressionPhrase I args ∧ Expr.needAll args ≤ d := by
  constructor
  · intro h
    induction h with
    | single first => exact ⟨.single first.1, by simpa [Expr.needAll] using first.2⟩
    | cons first _ ih =>
      exact ⟨.cons first.1 ih.1, by simpa [Expr.needAll, Nat.max_le] using ⟨first.2, ih.2⟩⟩
  · rintro ⟨h, hneed⟩
    induction h with
    | single first => exact .single ⟨first, by simpa [Expr.needAll] using hneed⟩
    | cons first _ ih =>
      obtain ⟨hfirst, hmore⟩ := Nat.max_le.mp (by simpa [Expr.needAll] using hneed)
      exact .cons ⟨first, hfirst⟩ (ih hmore)

section Operand

variable {d : Nat}

theorem negation_complete {inner : Rule σ (Operand (Span σ))} {m : σ} {I rest : Input σ} {x span}
    (hread : inner.read (I ++ rest) = .matched x rest) (hphrase : OperandPhrase I x)
    (hspan : Spans ((.keyword "NOT", m) :: I) span) :
    (negation inner).read ((.keyword "NOT", m) :: (I ++ rest)) = .matched (.not span x) rest := by
  simp only [negation, Rule.andThen_matched, Rule.keyword_matched, Step.bind_ok, Rule.requireOr_ok,
    Step.pure_ok]
  refine ⟨⟨.single m, ()⟩, _, ⟨m, rfl, rfl⟩, x, rest, hread, ?_, rfl⟩
  rw [hspan.unique (.cons _ _ hphrase.spans)]

/-! The four rules for operands are tried in turn, each at its own operands. -/

/-- NOT is tried first, so nothing comes before it. -/
theorem operand_of_negation {m : σ} {I rest : Input σ} {x}
    (hread : (negation (operand d)).read ((.keyword "NOT", m) :: I) = .matched x rest) :
    (operand (d + 1)).read ((.keyword "NOT", m) :: I) = .matched x rest := by
  simp only [operand, Rule.read_delay, Rule.orElse_matched]
  exact .inl hread

/-- A name does not begin with NOT. -/
theorem operand_of_call {f : String} {m : σ} {I rest : Input σ} {x}
    (hread : (call (expression d)).read ((.name f, m) :: I) = .matched x rest) :
    (operand (d + 1)).read ((.name f, m) :: I) = .matched x rest := by
  simp only [operand, Rule.read_delay, Rule.orElse_matched]
  exact .inr ⟨by simp [negation_absent], .inl hread⟩

/-- A column is what a name is that no call begins with. -/
theorem operand_of_column {I rest : Input σ} {c} (hphrase : ColumnPhrase I c)
    (hcall : (call (expression d)).read (I ++ rest) = .absent)
    (hread : columnRef.read (I ++ rest) = .matched c rest) :
    (operand (d + 1)).read (I ++ rest) = .matched (.atom c.span (.column c.node)) rest := by
  simp only [operand, Rule.read_delay, Rule.orElse_matched]
  exact .inr ⟨negation_absent_of_qualified hphrase, .inr ⟨hcall, .inl
    (Rule.map_matched.mpr ⟨c, hread, rfl⟩)⟩⟩

/-- Literals come last, and no other operand begins with one. -/
theorem operand_of_literal {kind : Kind} {m : σ} {rest : Input σ} {value}
    (hkind : literalOf kind = some value) :
    (operand (d + 1)).read ((kind, m) :: rest) = .matched (.atom (.single m) value) rest := by
  obtain ⟨hnot, hname⟩ := literalOf_some hkind
  simp only [operand, Rule.read_delay, Rule.orElse_matched]
  refine .inr ⟨by simpa [negation_absent] using hnot, .inr ⟨?_, .inr ⟨?_, ?_⟩⟩⟩
  · rw [call, Rule.andThen_absent, Rule.both_absent]
    left
    simpa using hname
  · simpa [column, columnRef_absent] using hname
  · exact Rule.map_matched.mpr ⟨⟨.single m, value⟩,
      Rule.token_matched.mpr ⟨kind, m, rfl, hkind, rfl⟩, rfl⟩

/-- Between the parentheses one operand is looked for, so there has to be room for it. -/
theorem call_empty_complete {f : String} {m₁ m₂ m₃ : σ} {rest : Input σ} (hd : 1 ≤ d) :
    (call (expression d)).read
        ((.name f, m₁) :: (.symbol "(", m₂) :: (.symbol ")", m₃) :: rest) =
      .matched (.call ⟨m₁, m₃⟩ f []) rest := by
  simp only [call, Rule.andThen_matched, Rule.both_matched, Rule.name_matched, Rule.symbol_matched,
    Step.bind_ok, Rule.optional_ok, Rule.require_ok, Step.pure_ok]
  refine ⟨(⟨.single m₁, f⟩, ⟨.single m₂, ()⟩), _, ⟨_, ⟨m₁, rfl, rfl⟩, m₂, rfl, rfl⟩, none, _,
    .inl ⟨rfl, rfl, ?_⟩, ⟨.single m₃, ()⟩, rest, ⟨m₃, rfl, rfl⟩, rfl, rfl⟩
  rw [Rule.commaList_absent, expression_absent]
  exact ⟨hd, stops_cons.mpr (by decide)⟩

theorem reads_expressions
    (h : (operand d : Rule σ _).Reads (OperandWithin d) Kind.continuesOperand) :
    ((expression d : Rule σ _).commaList .expression).Reads
      (fun I xs => CommaPhrase ExpressionPhrase I (xs.1 :: xs.2) ∧ Expr.needAll (xs.1 :: xs.2) ≤ d)
      (Kind.continuesList Kind.continuesExpression) where
  sound {I xs rest} hread := by
    obtain ⟨used, heq, hphrase⟩ :=
      (reads_commaList (reads_expressionOf h) (by decide) .expression).sound hread
    exact ⟨used, heq, commaPhrase_within.mp hphrase⟩
  complete {I xs rest} hphrase hstop :=
    (reads_commaList (reads_expressionOf h) (by decide) .expression).complete
      (commaPhrase_within.mpr hphrase) hstop

variable (h : (operand d : Rule σ _).Reads (OperandWithin d) Kind.continuesOperand)
include h

/-- What was read for NOT and its operand is that. -/
theorem negation_sound {I rest : Input σ} {x}
    (hread : (negation (operand d)).read I = .matched x rest) :
    ∃ used, I = used ++ rest ∧ OperandWithin (d + 1) used x := by
  simp only [negation, Rule.andThen_matched, Rule.keyword_matched, Step.bind_ok, Rule.requireOr_ok,
    Step.pure_ok] at hread
  obtain ⟨key, middle, ⟨m, rfl, hspan⟩, value, _, hvalue, rfl, rfl⟩ := hread
  obtain ⟨used, rfl, hphrase, hneed⟩ := h.sound hvalue
  refine ⟨(.keyword "NOT", m) :: used, rfl, .not hphrase ?_, by simpa [Operand.need] using hneed⟩
  rw [hspan]
  exact .cons _ _ hphrase.spans

/-- A call without arguments or with some. -/
theorem call_sound {I rest : Input σ} {x} (hread : (call (expression d)).read I = .matched x rest) :
    ∃ used, I = used ++ rest ∧ OperandWithin (d + 1) used x := by
  simp only [call, Rule.andThen_matched, Rule.both_matched, Rule.name_matched, Rule.symbol_matched,
    Step.bind_ok, Rule.optional_ok, Rule.require_ok, Step.pure_ok] at hread
  obtain ⟨⟨function, opening⟩, _, ⟨_, ⟨m₁, rfl, hfunction⟩, m₂, rfl, -⟩, args, _, hargs, close, _,
    ⟨m₃, rfl, hclose⟩, rfl, rfl⟩ := hread
  rw [hfunction, hclose]
  rcases hargs with ⟨rfl, rfl, habsent⟩ | ⟨⟨first, more⟩, rfl, hargs⟩
  -- that no argument begins here also says that there was room to look for one
  · have hroom := (expression_absent.mp (Rule.commaList_absent.mp habsent)).1
    refine ⟨[_, _, _], rfl, .call, ?_⟩
    simp only [Option.elim_none, Operand.need, Expr.needAll]
    omega
  · obtain ⟨used, rfl, hphrase, hneed⟩ := (reads_expressions h).sound hargs
    refine ⟨(.name function.node, m₁) :: (.symbol "(", m₂) :: (used ++ [(.symbol ")", m₃)]),
      by simp, .callWith hphrase, ?_⟩
    have hone := arguments_one_le_need hphrase
    simp only [Option.elim_some, Operand.need] at hone hneed ⊢
    omega

theorem callWith_complete {f : String} {m₁ m₂ m₃ : σ} {I rest : Input σ} {args}
    (hargs : CommaPhrase ExpressionPhrase I args) (hneed : Expr.needAll args ≤ d) :
    (call (expression d)).read
        ((.name f, m₁) :: (.symbol "(", m₂) :: (I ++ (.symbol ")", m₃) :: rest)) =
      .matched (.call ⟨m₁, m₃⟩ f args) rest := by
  obtain ⟨first, more, rfl⟩ := hargs.exists_cons
  simp only [call, Rule.andThen_matched, Rule.both_matched, Rule.name_matched, Rule.symbol_matched,
    Step.bind_ok, Rule.optional_ok, Rule.require_ok, Step.pure_ok]
  exact ⟨(⟨.single m₁, f⟩, ⟨.single m₂, ()⟩), _, ⟨_, ⟨m₁, rfl, rfl⟩, m₂, rfl, rfl⟩,
    some (first, more), _, .inr ⟨(first, more), rfl, (reads_expressions h).complete ⟨hargs, hneed⟩
      (stops_cons.mpr (by decide))⟩, ⟨.single m₃, ()⟩, rest, ⟨m₃, rfl, rfl⟩, rfl, rfl⟩

/-- One level more than what is known of operands with less room. -/
theorem operand_sound_succ {I rest : Input σ} {x}
    (hread : (operand (d + 1)).read I = .matched x rest) :
    ∃ used, I = used ++ rest ∧ OperandWithin (d + 1) used x := by
  simp only [operand, Rule.read_delay, Rule.orElse_matched] at hread
  rcases hread with hread | ⟨-, hread | ⟨-, hread | ⟨-, hread⟩⟩⟩
  · exact negation_sound h hread
  · exact call_sound h hread
  · obtain ⟨⟨span, ref⟩, href, rfl⟩ := Rule.map_matched.mp hread
    obtain ⟨used, rfl, hphrase⟩ := reads_columnRef.sound href
    exact ⟨used, rfl, .column hphrase, by simp [Operand.need]⟩
  · obtain ⟨⟨span, value⟩, hvalue, rfl⟩ := Rule.map_matched.mp hread
    obtain ⟨kind, m, rfl, hkind, rfl⟩ := Rule.token_matched.mp hvalue
    exact ⟨[(kind, m)], rfl, .literal hkind, by simp [Operand.need]⟩

/-- Likewise, for operands that are there to be read. -/
theorem operand_complete_succ {I rest : Input σ} {x} (hphrase : OperandPhrase I x)
    (hneed : x.need ≤ d + 1) (hstop : Stops Kind.continuesOperand rest) :
    (operand (d + 1)).read (I ++ rest) = .matched x rest := by
  cases hphrase with
  | @not m I x span value hspan =>
    have hvalue := h.complete ⟨value, by simpa [Operand.need] using hneed⟩ hstop
    exact operand_of_negation (negation_complete hvalue value hspan)
  | @call f m₁ m₂ m₃ =>
    refine operand_of_call (call_empty_complete ?_)
    simp only [Operand.need, Expr.needAll] at hneed
    omega
  | @callWith f m₁ m₂ I m₃ args arguments =>
    simp only [List.cons_append, List.append_assoc, List.nil_append]
    refine operand_of_call (callWith_complete h arguments ?_)
    simp only [Operand.need] at hneed
    omega
  | @column I c hcolumn =>
    exact operand_of_column hcolumn (call_absent_of_qualified hcolumn hstop)
      (reads_columnRef.complete hcolumn hstop.name)
  | literal hkind => exact operand_of_literal hkind

end Operand

/-- By induction on the limit. -/
theorem reads_operand (d : Nat) :
    (operand d : Rule σ _).Reads (OperandWithin d) Kind.continuesOperand := by
  induction d with
  | zero =>
    refine ⟨fun hread => (Rule.refuse_ne_matched hread).elim, fun hphrase _ => ?_⟩
    have := Nat.le_trans (Operand.one_le_need _) hphrase.2
    omega
  | succ d ih =>
    exact ⟨operand_sound_succ ih, fun hphrase hstop =>
      operand_complete_succ ih hphrase.1 hphrase.2 hstop⟩

theorem reads_expression (d : Nat) :
    (expression d : Rule σ _).Reads (ExpressionWithin d) Kind.continuesExpression :=
  reads_expressionOf (reads_operand d)

end SqlScript.Grammar

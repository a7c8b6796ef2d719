import SqlScript.Proofs.Grammar.Expression
import SqlScript.Proofs.Grammar.Greedy
import SqlScript.Reader

/-!
# The longest start of a construct decides what is read

With room for all tokens, what is read at an index is told by the longest start of a construct there
(`Reader.reads_longest`).

A construct goes on behind its end in two ways. An operator continues an expression, and a name at
the end of an operand may turn out to be the first half of a column or the name of a call.
-/

namespace SqlScript

variable {σ α : Type}

/-- Does an operand end with a name that a dot or a parenthesis can follow? -/
def Operand.isOpen : Operand α → Bool
  | .not _ x => x.isOpen
  | .atom _ (.column ref) => ref.table.isNone
  | _ => false

namespace Grammar

/-! ## Columns -/

/-- A column without a table goes on with a dot. -/
def columnGoesOn (c : Spanned (Span σ) ColumnRef) (kind : Kind) : Bool :=
  c.node.table.isNone && kind.continuesName

/-- A column is read up to where it cannot go on. -/
theorem columnRef_complete {I rest : Input σ} {c} (h : ColumnPhrase I c)
    (hstop : Stops (columnGoesOn c) rest) : columnRef.read (I ++ rest) = .matched c rest := by
  obtain ⟨span, table, column⟩ := c
  cases h with
  | plain => exact reads_columnRef.complete .plain (by simpa [Stops, columnGoesOn] using hstop)
  | dotted => exact Rule.map_matched.mpr ⟨_, qualified_dotted _, rfl⟩

/-- A column that was read does not go on. -/
theorem columnRef_stops {I rest : Input σ} {c} (hread : columnRef.read I = .matched c rest) :
    Stops (columnGoesOn c) rest := by
  simp only [columnRef, qualified, Rule.map_matched, Rule.andThen_matched, Step.bind_ok,
    Rule.optional_ok] at hread
  obtain ⟨_, ⟨first, middle, -, found, behind, hdot, hread⟩, rfl⟩ := hread
  rcases hdot with ⟨rfl, rfl, hdot⟩ | ⟨dot, rfl, -⟩
  · obtain ⟨rfl, rfl⟩ := Step.pure_ok.mp hread
    simpa [Stops, columnGoesOn, Kind.continuesName] using hdot
  · simp only [Step.bind_ok, Step.pure_ok] at hread
    obtain ⟨second, _, -, rfl, rfl⟩ := hread
    simp [Stops, columnGoesOn]

/-- Behind a dot there could be another name. -/
theorem ColumnPhrase.continued {I : Input σ} {c kind} (m : σ) (h : ColumnPhrase I c)
    (hkind : columnGoesOn c kind = true) : Viable ColumnPhrase (I ++ [(kind, m)]) := by
  obtain ⟨span, table, column⟩ := c
  cases h with
  | plain =>
    obtain rfl : kind = .symbol "." := by simpa [columnGoesOn, Kind.continuesName] using hkind
    exact ⟨[(.name column, m)], ⟨_, some column, column⟩, .dotted⟩
  | dotted => cases hkind

theorem ColumnPhrase.startable {first : Kind × σ} :
    Viable ColumnPhrase [first] ↔ ∃ text, first.1 = .name text := by
  obtain ⟨kind, m⟩ := first
  constructor
  · rintro ⟨more, ⟨span, table, column⟩, h⟩
    cases h <;> exact ⟨_, rfl⟩
  · rintro ⟨text, rfl⟩
    exact ⟨[], ⟨.single m, none, text⟩, .plain⟩

theorem greedy_columnRef : Greedy (fun _ => (columnRef : Rule σ _)) ColumnPhrase := by
  have hsettles : ∀ {I : Input σ} {c}, ColumnPhrase I c →
      Settles (fun _ => columnRef) ColumnPhrase I c (columnGoesOn c) := fun h =>
    ⟨h, fun _ hstop => columnRef_complete h hstop, h.continued _⟩
  refine ⟨fun hread => ?_, fun h => ⟨_, hsettles h⟩, fun _ => ?_⟩
  · obtain ⟨used, rfl, hphrase⟩ := reads_columnRef.sound hread
    exact ⟨used, _, rfl, hsettles hphrase, columnRef_stops hread⟩
  · simp only [columnRef_absent, ColumnPhrase.startable, not_exists]

/-! ## Operands -/

/-- A bare name goes on with a dot or a parenthesis, also as the last operand of others. -/
def operandGoesOn (x : Operand (Span σ)) (kind : Kind) : Bool := x.isOpen && kind.continuesOperand

theorem isOpen_of_literalOf {kind : Kind} {value : Atom} {span : α}
    (h : literalOf kind = some value) : (Operand.atom span value).isOpen = false := by
  cases value with
  | column ref => exact (literalOf_ne_column kind ref h).elim
  | _ => rfl

theorem operandGoesOn_literal {kind next : Kind} {value : Atom} {span : Span σ}
    (h : literalOf kind = some value) : operandGoesOn (.atom span value) next = false := by
  simp [operandGoesOn, isOpen_of_literalOf h]

/-- What a bare name goes on with. -/
theorem operandGoesOn_name {span : Span σ} {text : String} {next : Kind} :
    operandGoesOn (.atom span (.column ⟨none, text⟩)) next = true ↔
      next = .symbol "." ∨ next = .symbol "(" := by
  simp [operandGoesOn, Operand.isOpen, Kind.continuesOperand, Kind.continuesName]

/-- An operand that does not end openly is read before any rest. -/
theorem operand_closed {d : Nat} {I rest : Input σ} {x} (h : OperandPhrase I x) (hneed : x.need ≤ d)
    (hclosed : x.isOpen = false) : (operand d).read (I ++ rest) = .matched x rest := by
  induction d generalizing I x with
  | zero => exact absurd (Nat.le_trans x.one_le_need hneed) (by omega)
  | succ d ih =>
    cases h with
    | not value hspan =>
      have hvalue := ih value (by simpa [Operand.need] using hneed) hclosed
      exact operand_of_negation (negation_complete hvalue value hspan)
    | call =>
      refine operand_of_call (call_empty_complete ?_)
      simp only [Operand.need, Expr.needAll] at hneed
      omega
    | callWith arguments =>
      simp only [List.cons_append, List.append_assoc, List.nil_append]
      refine operand_of_call (callWith_complete (reads_operand d) arguments ?_)
      simp only [Operand.need] at hneed
      omega
    | @column I c hcolumn =>
      obtain ⟨span, table, column⟩ := c
      cases hcolumn with
      | plain => cases hclosed
      | dotted =>
        refine operand_of_column .dotted (call_absent_of_name.mpr (by simp))
          (columnRef_complete .dotted ?_)
        simp [Stops, columnGoesOn]
    | literal hkind => exact operand_of_literal hkind

/-- An operand is read up to where it cannot go on. -/
theorem operand_complete {d : Nat} {I rest : Input σ} {x} (h : OperandPhrase I x)
    (hneed : x.need ≤ d) (hstop : Stops (operandGoesOn x) rest) :
    (operand d).read (I ++ rest) = .matched x rest := by
  cases hopen : x.isOpen with
  | true =>
    exact (reads_operand d).complete ⟨h, hneed⟩ (by simpa [Stops, operandGoesOn, hopen] using hstop)
  | false => exact operand_closed h hneed hopen

/-- An operand that was read does not go on. -/
theorem operand_stops {d : Nat} {I rest : Input σ} {x}
    (hread : (operand d).read I = .matched x rest) : Stops (operandGoesOn x) rest := by
  induction d generalizing I x with
  | zero => exact (Rule.refuse_ne_matched hread).elim
  | succ d ih =>
    simp only [operand, Rule.read_delay, Rule.orElse_matched] at hread
    rcases hread with hread | ⟨-, hread | ⟨hcall, hread | ⟨-, hread⟩⟩⟩
    · simp only [negation, Rule.andThen_matched, Step.bind_ok, Rule.requireOr_ok,
        Step.pure_ok] at hread
      obtain ⟨_, _, -, value, _, hvalue, rfl, rfl⟩ := hread
      have hinner := ih hvalue
      exact hinner
    · simp only [call, Rule.andThen_matched, Step.bind_ok, Step.pure_ok] at hread
      obtain ⟨_, _, -, _, _, -, _, _, -, rfl, rfl⟩ := hread
      simp [Stops, operandGoesOn, Operand.isOpen]
    · obtain ⟨c, href, rfl⟩ := Rule.map_matched.mp hread
      obtain ⟨used, rfl, hphrase⟩ := reads_columnRef.sound href
      have hdot := columnRef_stops href
      obtain ⟨span, table, column⟩ := c
      cases hphrase with
      | plain =>
        intro first hfirst
        have hnoCall := call_absent_of_name.mp hcall first hfirst
        have hnoDot := hdot first hfirst
        simp_all [operandGoesOn, columnGoesOn, Operand.isOpen, Kind.continuesOperand]
      | dotted => simp [Stops, operandGoesOn, Operand.isOpen]
    · obtain ⟨⟨span, value⟩, hvalue, rfl⟩ := Rule.map_matched.mp hread
      obtain ⟨kind, m, rfl, hkind, rfl⟩ := Rule.token_matched.mp hvalue
      simp [Stops, operandGoesOn_literal hkind]

theorem OperandPhrase.continued {I : Input σ} {x kind} (m : σ) (h : OperandPhrase I x)
    (hkind : operandGoesOn x kind = true) : Viable OperandPhrase (I ++ [(kind, m)]) := by
  match h with
  | .not value _ =>
    obtain ⟨more, y, hmore⟩ := value.continued m hkind
    exact ⟨more, _, .not hmore (.cons _ _ hmore.spans)⟩
  | .call => cases hkind
  | .callWith _ => cases hkind
  | .literal hliteral => cases (operandGoesOn_literal hliteral).symm.trans hkind
  | @OperandPhrase.column _ _ ⟨span, table, text⟩ hcolumn =>
    cases hcolumn with
    | dotted => cases hkind
    | plain =>
      rcases operandGoesOn_name.mp hkind with rfl | rfl
      · exact ⟨[(.name text, m)], _, .column (c := ⟨_, some text, text⟩) .dotted⟩
      · exact ⟨[(.symbol ")", m)], _, .call⟩

/-- The kinds that can begin an operand. -/
theorem OperandPhrase.startable {first : Kind × σ} :
    Viable OperandPhrase [first] ↔ first.1.startsOperand = true := by
  obtain ⟨kind, m⟩ := first
  have hname : ∀ text, OperandPhrase [(.name text, m)] (.atom _ (.column ⟨none, text⟩)) :=
    fun text => .column (c := ⟨.single m, none, text⟩) .plain
  constructor
  · rintro ⟨more, x, h⟩
    rw [← Bool.not_eq_false]
    intro hkind
    have hread := (reads_operand x.need).complete ⟨h, Nat.le_refl _⟩ .nil
    rw [List.append_nil, List.singleton_append] at hread
    cases hread.symm.trans (operand_absent.mpr ⟨x.one_le_need, stops_cons.mpr hkind⟩)
  · intro hkind
    cases kind with
    | name text => exact .of_phrase (hname text)
    | keyword word =>
      by_cases hword : word = "NOT"
      · subst hword
        exact ⟨[(.name "", m)], _, .not (hname "") (.cons _ _ (.single _ _))⟩
      · obtain ⟨value, hvalue⟩ : ∃ value, literalOf (.keyword word) = some value := by
          simpa [Kind.startsOperand, hword, Option.isSome_iff_exists] using hkind
        exact .of_phrase (.literal hvalue)
    | number value => exact .of_phrase (.literal rfl)
    | string value => exact .of_phrase (.literal rfl)
    | symbol text => cases hkind

theorem greedy_operand : Greedy (fun d => (operand d : Rule σ _)) OperandPhrase := by
  have hsettles : ∀ {I : Input σ} {x}, OperandPhrase I x →
      Settles (fun d => operand d) OperandPhrase I x (operandGoesOn x) := fun h =>
    ⟨h, fun hd hstop => operand_complete h (Nat.le_trans h.need_le hd) hstop, h.continued _⟩
  refine ⟨fun hread => ?_, fun h => ⟨_, hsettles h⟩, fun hd => ?_⟩
  · obtain ⟨used, rfl, hphrase, -⟩ := (reads_operand _).sound hread
    exact ⟨used, _, rfl, hsettles hphrase, operand_stops hread⟩
  · simp only [operand_absent, Stops, OperandPhrase.startable, Bool.not_eq_true]
    exact and_iff_right hd

/-! ## Expressions -/

/-- A chain goes on as its last operand does, or with an operator. -/
def chainGoesOn {β : Type} (first : Operand (Span σ)) (links : List (β × Operand (Span σ)))
    (kind : Kind) : Bool :=
  (Operator.ofKind? kind).isSome || operandGoesOn (lastOperand first links) kind

/-- Every chain can be arranged. -/
theorem ChainPhrase.expression {I : Input σ} {first links} (h : ChainPhrase I first links) :
    ∃ e, ExpressionPhrase I e := by
  obtain ⟨hnested, hinorder⟩ := Arrangement.stratify_nested first links
  exact ⟨_, .intro h h.spans hnested hinorder⟩

/-- By induction on the links. Behind the last one there was no operator. -/
theorem chain_stops {d : Nat} {missing : Spanned (Span σ) Operator → Cause} {I rest : Input σ}
    {first links} (hfirst : Stops (operandGoesOn first) I)
    (h : ((operand d).links operator missing).read I = .ok (links, rest)) :
    Stops (chainGoesOn first links) rest := by
  induction links generalizing I first with
  | nil =>
    rcases Rule.links_ok.mp h with ⟨-, rfl, habsent⟩ | ⟨_, _, _, _, _, heq, -⟩
    · intro next hnext
      have hoperator := Rule.token_absent.mp habsent next hnext
      have hgoes := hfirst next hnext
      simp_all [chainGoesOn]
    · cases heq
  | cons link links ih =>
    rcases Rule.links_ok.mp h with ⟨heq, -⟩ | ⟨_, _, _, _, _, heq, -, hx, hmore⟩
    · cases heq
    · cases heq
      have hstops := ih (operand_stops hx) hmore
      simpa only [Stops, chainGoesOn, lastOperand_cons] using hstops

/-- An expression is read up to where it cannot go on. -/
theorem expression_complete {d : Nat} {I rest : Input σ} {first links} {t : Arrangement (Span σ)}
    {span} (h : ChainPhrase I first links) (hspan : Spans I span) (hnested : t.Nested)
    (hinorder : t.inorder = chainItems first links) (hd : I.length ≤ d)
    (hstop : Stops (chainGoesOn first links) rest) :
    (expression d).read (I ++ rest) = .matched (.postfixed span t.postorder) rest := by
  have hoperands : ∀ x ∈ first :: links.map Prod.snd, x.need ≤ d := by
    rw [List.forall_mem_cons, List.forall_mem_map]
    exact ⟨Nat.le_trans h.need_le.1 hd, fun l hl => Nat.le_trans (h.need_le.2 l hl) hd⟩
  have hoperator : ∀ (x : Operand (Span σ)) {kind o}, Operator.ofKind? kind = some o →
      operandGoesOn x kind = false := fun x kind o hkind => by
    rw [operandGoesOn, Kind.continuesOperand_of_operator hkind, Bool.and_false]
  have hread := chain_complete hoperator (fun op => .operandAfter op.node) h
    (fun x hx _ _ hx' => operand_complete hx' (hoperands x hx))
    (hstop.mono fun kind hkind => by simp [chainGoesOn, hkind])
    (hstop.mono fun kind hkind => by simp [chainGoesOn, hkind])
  rw [hspan.unique h.spans]
  exact expressionOf_matched.mpr ⟨first, links, t, hread, hnested, hinorder, rfl⟩

/-- Behind an operator there could be another operand. -/
theorem ChainPhrase.continued {I : Input σ} {first links kind} (m : σ)
    (h : ChainPhrase I first links) (hkind : chainGoesOn first links kind = true) :
    ∃ more x links', ChainPhrase (I ++ [(kind, m)] ++ more) x links' := by
  induction links generalizing I first with
  | nil =>
    cases h with
    | single hfirst =>
      cases hoperator : Operator.ofKind? kind with
      | some o =>
        have hname : OperandPhrase [(.name "", m)] (.atom _ (.column ⟨none, ""⟩)) :=
          .column (c := ⟨.single m, none, ""⟩) .plain
        have hlink := ChainPhrase.link (m := m) hfirst hoperator (.single hname)
        exact ⟨[(.name "", m)], _, _, by simpa using hlink⟩
      | none =>
        obtain ⟨more, x, hx⟩ := hfirst.continued m (by simpa [chainGoesOn, hoperator] using hkind)
        exact ⟨more, x, [], .single hx⟩
  | cons link links ih =>
    cases h with
    | @link I kind' m' o J _ y _ hfirst hoperator hmore =>
      rw [chainGoesOn, lastOperand_cons] at hkind
      obtain ⟨more, x, links', hchain⟩ := ih hmore hkind
      have hlink := ChainPhrase.link (m := m') hfirst hoperator hchain
      exact ⟨more, _, _, by simpa using hlink⟩

theorem ExpressionPhrase.startable {first : Kind × σ} :
    Viable ExpressionPhrase [first] ↔ first.1.startsOperand = true := by
  constructor
  · rintro ⟨more, e, h⟩
    rw [← Bool.not_eq_false]
    intro hkind
    have hread := (reads_expression e.need).complete ⟨h, Nat.le_refl _⟩ .nil
    rw [List.append_nil, List.singleton_append] at hread
    cases hread.symm.trans (expression_absent.mpr ⟨h.one_le_need, stops_cons.mpr hkind⟩)
  · intro hkind
    obtain ⟨more, x, h⟩ := OperandPhrase.startable.mpr hkind
    obtain ⟨e, he⟩ := (ChainPhrase.single h).expression
    exact ⟨more, e, he⟩

theorem greedy_expression : Greedy (fun d => (expression d : Rule σ _)) ExpressionPhrase := by
  have hsettles : ∀ {I : Input σ} {first links} {t : Arrangement (Span σ)} {span},
      ChainPhrase I first links → Spans I span → t.Nested → t.inorder = chainItems first links →
      Settles (fun d => expression d) ExpressionPhrase I (.postfixed span t.postorder)
        (chainGoesOn first links) := fun h hspan hnested hinorder =>
    ⟨.intro h hspan hnested hinorder,
      fun hd hstop => expression_complete h hspan hnested hinorder hd hstop, fun hkind => by
        obtain ⟨more, x, links', hchain⟩ := h.continued _ hkind
        obtain ⟨e, he⟩ := hchain.expression
        exact ⟨more, e, he⟩⟩
  refine ⟨fun {d I e rest} hread => ?_, fun h => ?_, fun hd => ?_⟩
  · obtain ⟨first, links, t, hchain, hnested, hinorder, rfl⟩ := expressionOf_matched.mp hread
    obtain ⟨middle, hfirst, hlinks⟩ := Rule.chain_matched.mp hchain
    obtain ⟨used, rfl, hphrase, -⟩ := (reads_operand d).sound hfirst
    obtain ⟨used', rfl, hchain, -⟩ := operatorLinks_sound (reads_operand d) hphrase hlinks
    exact ⟨used ++ used', _, by simp, hsettles hchain hchain.spans hnested hinorder,
      chain_stops (operand_stops hfirst) hlinks⟩
  · cases h with
    | intro hchain hspan hnested hinorder => exact ⟨_, hsettles hchain hspan hnested hinorder⟩
  · simp only [expression_absent, Stops, ExpressionPhrase.startable, Bool.not_eq_true]
    exact and_iff_right hd

end Grammar

namespace Reader

open Grammar

/-- What is found at an index is told by the longest start of a phrase there: nothing if there is
none, the phrase that it is if it is one, and otherwise an error. -/
def FoundLongest (r : Reader) (phrase : Input Token → α → Prop) (index : Nat)
    (found : Except SyntaxError (Option (Nat × α))) : Prop :=
  ∃ m, LongestStart phrase (r.input.drop index) m ∧
    (found = .ok none ↔ m = 0) ∧
    (∀ next x, found = .ok (some (next, x)) ↔
      0 < m ∧ phrase ((r.input.drop index).take m) x ∧ next = index + m) ∧
    ((∃ e, found = .error e) ↔ 0 < m ∧ ¬ ∃ x, phrase ((r.input.drop index).take m) x)

/-- What holds of the rule at the front of any input holds at every index of the tokens. -/
theorem readAt_longest {r : Reader} {rule : Nat → Rule Token α} {phrase}
    (hrule : Greedy rule phrase) (hnil : Viable phrase []) (h : r.tokens.length < r.maxDepth)
    (index : Nat) : r.FoundLongest phrase index (r.readAt (rule r.maxDepth) index) := by
  have hlength : (r.input.drop index).length = r.tokens.length - index := by simp [input]
  obtain ⟨m, hm⟩ := exists_longestStart hnil (r.input.drop index)
  have habsent := hrule.absent_iff (Nat.zero_lt_of_lt h) hm
  have hmatched : ∀ x, phrase ((r.input.drop index).take m) x →
      (rule r.maxDepth).read (r.input.drop index) = .matched x ((r.input.drop index).drop m) :=
    fun x hx => hrule.matched_of_longest (by omega) hm hx
  refine ⟨m, hm, ?_⟩
  cases hread : (rule r.maxDepth).read (r.input.drop index) with
  | absent =>
    obtain rfl := habsent.mp hread
    have hfound : r.readAt (rule r.maxDepth) index = .ok none := by simp only [readAt, hread]
    simp [hfound]
  | matched x rest =>
    obtain ⟨hphrase, rfl⟩ := hrule.matched_longest hread hm
    have hpos : m ≠ 0 := fun hzero => by cases hread.symm.trans (habsent.mpr hzero)
    have hle := hm.le
    have hfound : r.readAt (rule r.maxDepth) index = .ok (some (index + m, x)) := by
      simp only [readAt, hread, List.length_drop, hlength, Except.ok.injEq, Option.some.injEq,
        Prod.mk.injEq, and_true]
      omega
    have honly : ∀ y, phrase ((r.input.drop index).take m) y → y = x := fun y hy => by
      cases hread.symm.trans (hmatched y hy)
      rfl
    rw [hfound]
    refine ⟨⟨nofun, fun hzero => (hpos hzero).elim⟩, fun next y => ?_, nofun, ?_⟩
    · constructor
      · rintro ⟨⟩
        exact ⟨Nat.pos_of_ne_zero hpos, hphrase, rfl⟩
      · rintro ⟨-, hy, rfl⟩
        rw [honly y hy]
    · exact fun hnone => (hnone.2 ⟨x, hphrase⟩).elim
  | malformed failure =>
    have hpos : m ≠ 0 := fun hzero => by cases hread.symm.trans (habsent.mpr hzero)
    have hnone : ¬ ∃ x, phrase ((r.input.drop index).take m) x := fun ⟨x, hx⟩ => by
      cases hread.symm.trans (hmatched x hx)
    have hfound : r.readAt (rule r.maxDepth) index = .error (r.resolve failure) := by
      simp only [readAt, hread]
    rw [hfound]
    refine ⟨⟨nofun, fun hzero => (hpos hzero).elim⟩, fun next y => ⟨nofun, ?_⟩, ?_⟩
    · exact fun hy => (hnone ⟨y, hy.2.1⟩).elim
    · exact ⟨fun _ => ⟨Nat.pos_of_ne_zero hpos, hnone⟩, fun _ => ⟨_, rfl⟩⟩

/-- With room for all tokens, what is read at an index is as long as can be, and a construct that
begins is not passed over. -/
theorem reads_longest {r : Reader} (h : r.tokens.length < r.maxDepth) (index : Nat) :
    r.FoundLongest ExpressionPhrase index (r.expression index) ∧
      r.FoundLongest OperandPhrase index (r.operand index) ∧
      r.FoundLongest ColumnPhrase index (r.column index) := by
  -- a name alone is each of them, so each has some start
  have hcolumn : ColumnPhrase [(.name "", r.first)] ⟨.single r.first, none, ""⟩ := .plain
  obtain ⟨e, hexpression⟩ := (ChainPhrase.single (.column hcolumn)).expression
  exact ⟨readAt_longest greedy_expression (.of_append (.of_phrase hexpression)) h index,
    readAt_longest greedy_operand (.of_append (.of_phrase (.column hcolumn))) h index,
    readAt_longest greedy_columnRef (.of_append (.of_phrase hcolumn)) h index⟩

theorem reads_longest_unfinished :
    let a : Token := ⟨.name "A", "a", 0, ⟨"", "a."⟩⟩
    let dot : Token := ⟨.symbol ".", ".", 1, ⟨"", "a."⟩⟩
    let r : Reader := ⟨a, [dot], 3⟩
    r.tokens.length < r.maxDepth ∧ r.column 0 = .error ⟨dot, .columnName⟩ ∧
      ∃ m, LongestStart ColumnPhrase r.input m ∧ 0 < m ∧
        ¬ ∃ x, ColumnPhrase (r.input.take m) x := by
  intro a dot r
  have h : r.tokens.length < r.maxDepth := by decide
  have hread : r.column 0 = .error ⟨dot, .columnName⟩ := rfl
  obtain ⟨-, -, m, hm, -, -, herror⟩ := reads_longest h 0
  exact ⟨h, hread, m, hm, herror.mp ⟨_, hread⟩⟩

end Reader

end SqlScript

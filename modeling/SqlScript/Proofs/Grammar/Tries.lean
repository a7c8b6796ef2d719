import SqlScript.Proofs.Grammar.Statement

/-!
# Where operands are looked for

`tries` lists the places where reading a tree looks for an operand, in the order of the tokens, and
how deep inside one another the operands are there. Under a limit that the tree does not fit in,
reading fails at the first place that lies deeper than the limit (`script_tooDeep`).
-/

namespace SqlScript

variable {σ α β : Type}

/-- The same places, inside one more operand. -/
def deeper (tries : List (Nat × σ)) : List (Nat × σ) := tries.map (Prod.map (· + 1) id)

mutual

/-- In a call without arguments, one is looked for at the closing parenthesis. -/
def Operand.tries : Operand (Span σ) → List (Nat × σ)
  | .not span x => (1, span.first) :: deeper x.tries
  | .call span _ [] => [(1, span.first), (2, span.last)]
  | .call span _ (e :: es) => (1, span.first) :: deeper (e.tries ++ Expr.triesAll es)
  | .atom span _ => [(1, span.first)]

def Expr.tries : Expr (Span σ) → List (Nat × σ)
  | .postfixed _ stack => Item.triesAll stack

def Expr.triesAll : List (Expr (Span σ)) → List (Nat × σ)
  | [] => []
  | e :: es => e.tries ++ Expr.triesAll es

def Item.tries : Item (Span σ) → List (Nat × σ)
  | .operand x => x.tries
  | .operator _ => []

def Item.triesAll : List (Item (Span σ)) → List (Nat × σ)
  | [] => []
  | i :: is => i.tries ++ Item.triesAll is

end

/-- Only WHERE looks for operands. -/
def Clauses.tries (c : Clauses (Span σ)) : List (Nat × σ) :=
  c.filter.elim [] fun condition => condition.node.tries

/-! ## The first place that is too deep -/

/-- The first of the places that lie just deeper than `d`. -/
def firstTry (d : Nat) (tries : List (Nat × σ)) : Option σ :=
  (tries.find? fun t => t.1 = d + 1).map Prod.snd

section FirstTry

variable {d : Nat} {tries tries' : List (Nat × σ)}

/-- One operand around all shifts the limit by one. -/
theorem firstTry_deeper : firstTry (d + 1) (deeper tries) = firstTry d tries := by
  simp only [firstTry, deeper, List.find?_map, Option.map_map]
  congr 1
  congr 1
  funext t
  simp

/-- The operand around all is not the one that lies deeper. -/
theorem firstTry_inside {m : σ} : firstTry (d + 1) ((1, m) :: deeper tries) = firstTry d tries := by
  have hskip : firstTry (d + 1) ((1, m) :: deeper tries) = firstTry (d + 1) (deeper tries) := by
    simp [firstTry]
  rw [hskip, firstTry_deeper]

/-- What comes first among the tokens is looked for first. -/
theorem firstTry_append :
    firstTry d (tries ++ tries') = (firstTry d tries).or (firstTry d tries') := by
  simp only [firstTry, List.find?_append]
  cases tries.find? fun t => t.1 = d + 1 <;> rfl

/-- Where all fits in there is no such place. -/
theorem firstTry_eq_none (h : ∀ t ∈ tries, t.1 ≤ d) : firstTry d tries = none := by
  rw [firstTry, List.find?_eq_none.mpr fun t ht => ?_, Option.map_none]
  have := h t ht
  simp only [decide_eq_true_eq]
  omega

end FirstTry

theorem forall_mem_deeper {tries : List (Nat × σ)} {d : Nat} :
    (∀ t ∈ deeper tries, t.1 ≤ d + 1) ↔ ∀ t ∈ tries, t.1 ≤ d := by
  simp only [deeper, List.forall_mem_map, Prod.map_fst, Nat.add_le_add_iff_right]

mutual

/-- No place lies deeper than what a tree needs. -/
theorem Operand.tries_le : (x : Operand (Span σ)) → ∀ t ∈ x.tries, t.1 ≤ x.need
  | .not _ x => by
    rw [Operand.tries, Operand.need, List.forall_mem_cons, forall_mem_deeper]
    exact ⟨Nat.le_add_left 1 _, x.tries_le⟩
  | .call _ _ [] => by simp [Operand.tries, Operand.need, Expr.needAll]
  | .call _ _ (e :: es) => by
    rw [Operand.tries, Operand.need, List.forall_mem_cons, forall_mem_deeper]
    exact ⟨Nat.le_add_left 1 _, fun t ht => Nat.le_trans (Expr.triesAll_le (e :: es) t ht)
      (Nat.le_max_right 1 _)⟩
  | .atom _ _ => by simp [Operand.tries, Operand.need]

theorem Expr.tries_le : (e : Expr (Span σ)) → ∀ t ∈ e.tries, t.1 ≤ e.need
  | .postfixed _ stack => Item.triesAll_le stack

theorem Expr.triesAll_le : (es : List (Expr (Span σ))) →
    ∀ t ∈ Expr.triesAll es, t.1 ≤ Expr.needAll es
  | [] => by simp [Expr.triesAll]
  | e :: es => by
    rw [Expr.triesAll, Expr.needAll, List.forall_mem_append]
    exact ⟨fun t ht => Nat.le_trans (e.tries_le t ht) (Nat.le_max_left _ _),
      fun t ht => Nat.le_trans (Expr.triesAll_le es t ht) (Nat.le_max_right _ _)⟩

theorem Item.tries_le : (i : Item (Span σ)) → ∀ t ∈ i.tries, t.1 ≤ i.need
  | .operand x => x.tries_le
  | .operator _ => by simp [Item.tries]

theorem Item.triesAll_le : (is : List (Item (Span σ))) →
    ∀ t ∈ Item.triesAll is, t.1 ≤ Item.needAll is
  | [] => by simp [Item.triesAll]
  | i :: is => by
    rw [Item.triesAll, Item.needAll, List.forall_mem_append]
    exact ⟨fun t ht => Nat.le_trans (i.tries_le t ht) (Nat.le_max_left _ _),
      fun t ht => Nat.le_trans (Item.triesAll_le is t ht) (Nat.le_max_right _ _)⟩

end

/-! ## Chains in postfix order

Postfix order keeps the operands of a chain in their order. -/

theorem Item.triesAll_eq (is : List (Item (Span σ))) :
    Item.triesAll is = is.flatMap Item.tries := by
  induction is with
  | nil => rfl
  | cons i is ih => rw [Item.triesAll, ih, List.flatMap_cons]

/-- Postfix order moves operators only. -/
theorem Arrangement.tries_postorder (t : Arrangement (Span σ)) :
    t.postorder.flatMap Item.tries = t.inorder.flatMap Item.tries := by
  induction t with
  | leaf x => rfl
  | node l o r ihl ihr =>
    simp [postorder, inorder, ihl, ihr, Item.tries]

/-- The places in a chain are those in its operands. -/
theorem tries_chainItems (first : Operand (Span σ))
    (links : List (Spanned (Span σ) Operator × Operand (Span σ))) :
    (chainItems first links).flatMap Item.tries =
      (first :: links.map Prod.snd).flatMap Operand.tries := by
  induction links generalizing first with
  | nil => rfl
  | cons link links ih =>
    have hcons : chainItems first (link :: links) =
        .operand first :: .operator link.1 :: chainItems link.2 links := rfl
    rw [hcons, List.flatMap_cons, List.flatMap_cons, ih]
    rfl

namespace Grammar

/-- Reading fails at the first place that is deeper than `d`. -/
def FailsDeep (d : Nat) (tries : List (Nat × σ)) (rule : Rule σ α) (I : Input σ) : Prop :=
  ∃ m, firstTry d tries = some m ∧ rule.read I = .malformed ⟨.tooDeep, some m⟩

/-! ## Expressions -/

section Chain

variable {operand : Rule σ (Operand (Span σ))} {d : Nat}
  (h : operand.Reads (OperandWithin d) Kind.continuesOperand)
  (hdeep : ∀ {I x}, OperandPhrase I x → d < x.need → ∀ rest,
    FailsDeep d x.tries operand (I ++ rest))
include h hdeep

/-- The operands before the first one too deep are read as they would be without a limit. -/
theorem chain_tooDeep (missing : Spanned (Span σ) Operator → Cause) {I : Input σ} {first links}
    (hchain : ChainPhrase I first links)
    (hneed : ¬ ∀ x ∈ first :: links.map Prod.snd, x.need ≤ d) (rest : Input σ) :
    FailsDeep d ((first :: links.map Prod.snd).flatMap Operand.tries)
      (operand.chain operator missing) (I ++ rest) := by
  induction links generalizing I first with
  | nil =>
    cases hchain with
    | single hphrase =>
      obtain ⟨m, hm, hread⟩ := hdeep hphrase (by simpa using hneed) rest
      exact ⟨m, by simpa using hm, Rule.chain_malformed.mpr (.inl hread)⟩
  | cons link links ih =>
    cases hchain with
    | @link I kind m' o J _ y _ hphrase hkind hmore =>
      rw [List.flatMap_cons, FailsDeep, firstTry_append, List.append_assoc]
      by_cases hfirst : first.need ≤ d
      · have hlinks : ¬ ∀ x ∈ y :: links.map Prod.snd, x.need ≤ d := fun hall =>
          hneed (List.forall_mem_cons.mpr ⟨hfirst, hall⟩)
        obtain ⟨m, hm, hread⟩ := ih hmore hlinks
        have hnone := firstTry_eq_none fun t ht => Nat.le_trans (first.tries_le t ht) hfirst
        have hstop : Stops Kind.continuesOperand ((kind, m') :: J ++ rest) :=
          stops_cons.mpr (Kind.continuesOperand_of_operator hkind)
        have hlink : Grammar.operator.read ((kind, m') :: J ++ rest) =
            .matched ⟨.single m', o⟩ (J ++ rest) :=
          Rule.token_matched.mpr ⟨kind, m', rfl, hkind, rfl⟩
        exact ⟨m, by rwa [hnone], Rule.chain_malformed.mpr (.inr ⟨first, _,
          h.complete ⟨hphrase, hfirst⟩ hstop, Rule.links_error hlink hread⟩)⟩
      · obtain ⟨m, hm, hread⟩ := hdeep hphrase (Nat.lt_of_not_le hfirst) ((kind, m') :: J ++ rest)
        exact ⟨m, by rw [hm]; rfl, Rule.chain_malformed.mpr (.inl hread)⟩

/-- An expression fails where its chain does. -/
theorem expressionOf_tooDeep {I : Input σ} {e} (he : ExpressionPhrase I e) (hneed : d < e.need)
    (rest : Input σ) : FailsDeep d e.tries (expressionOf operand) (I ++ rest) := by
  cases he with
  | @intro I first links span t hchain hspan hnested hinorder =>
    have hoperands : ¬ ∀ x ∈ first :: links.map Prod.snd, x.need ≤ d := fun hall =>
      Nat.not_le_of_lt hneed ((need_postfixed_le hinorder).mpr
        (by rwa [List.forall_mem_cons, List.forall_mem_map] at hall))
    obtain ⟨m, hm, hread⟩ :=
      chain_tooDeep h hdeep (fun op => .operandAfter op.node) hchain hoperands rest
    refine ⟨m, ?_, Rule.map_malformed.mpr hread⟩
    rw [Expr.tries, Item.triesAll_eq, t.tries_postorder, hinorder, tries_chainItems, hm]

/-- A list fails in the first of its expressions that does not fit in. -/
theorem expressions_tooDeep_of {I : Input σ} {list} (hlist : CommaPhrase ExpressionPhrase I list)
    (hneed : d < Expr.needAll list) (rest : Input σ) :
    FailsDeep d (Expr.triesAll list) ((expressionOf operand).commaList .expression)
      (I ++ rest) := by
  suffices hchain : ∀ missing, FailsDeep d (Expr.triesAll list)
      ((expressionOf operand).chain (Rule.symbol ",") missing) (I ++ rest) by
    obtain ⟨m, hm, hread⟩ := hchain _
    exact ⟨m, hm, Rule.map_malformed.mpr hread⟩
  intro missing
  induction hlist with
  | @single I e hfirst =>
    have hsingle : d < e.need := by simpa [Expr.needAll] using hneed
    obtain ⟨m, hm, hread⟩ := expressionOf_tooDeep h hdeep hfirst hsingle rest
    exact ⟨m, by simpa [Expr.triesAll] using hm, Rule.chain_malformed.mpr (.inl hread)⟩
  | @cons I m' J e es hfirst hmore ih =>
    rw [Expr.triesAll, FailsDeep, firstTry_append, List.append_assoc]
    by_cases hle : e.need ≤ d
    · have hrest : d < Expr.needAll es := by
        rw [Expr.needAll] at hneed
        omega
      obtain ⟨m, hm, hread⟩ := ih hrest
      have hnone := firstTry_eq_none fun t ht => Nat.le_trans (e.tries_le t ht) hle
      have hstop : Stops Kind.continuesExpression ((.symbol ",", m') :: J ++ rest) :=
        stops_cons.mpr (by decide)
      have hlink : (Rule.symbol ",").read ((.symbol ",", m') :: J ++ rest) =
          .matched ⟨.single m', ()⟩ (J ++ rest) := Rule.symbol_matched.mpr ⟨m', rfl, rfl⟩
      exact ⟨m, by rwa [hnone], Rule.chain_malformed.mpr (.inr ⟨e, _,
        (reads_expressionOf h).complete ⟨hfirst, hle⟩ hstop, Rule.links_error hlink hread⟩)⟩
    · obtain ⟨m, hm, hread⟩ :=
        expressionOf_tooDeep h hdeep hfirst (Nat.lt_of_not_le hle) ((.symbol ",", m') :: J ++ rest)
      exact ⟨m, by rw [hm]; rfl, Rule.chain_malformed.mpr (.inl hread)⟩

end Chain

/-- A call is broken where its arguments are. -/
theorem call_malformed {argument : Rule σ (Expr (Span σ))} {f : String} {m₁ m₂ : σ} {I : Input σ}
    {failure} (h : (argument.commaList .expression).read I = .malformed failure) :
    (call argument).read ((.name f, m₁) :: (.symbol "(", m₂) :: I) = .malformed failure := by
  have hopening : (Rule.name.both (Rule.symbol "(")).read
      ((.name f, m₁) :: (.symbol "(", m₂) :: I) = .matched (⟨.single m₁, f⟩, ⟨.single m₂, ()⟩) I :=
    Rule.both_matched.mpr ⟨_, Rule.name_matched.mpr ⟨m₁, rfl, rfl⟩,
      Rule.symbol_matched.mpr ⟨m₂, rfl, rfl⟩⟩
  exact Rule.andThen_malformed.mpr (.inr ⟨_, _, hopening,
    Step.bind_error.mpr (.inl (Rule.optional_error.mpr h))⟩)

/-- An operand that needs more than the limit is not read, whatever follows it. -/
theorem operand_tooDeep {d : Nat} {I : Input σ} {x} (h : OperandPhrase I x) (hneed : d < x.need)
    (rest : Input σ) : FailsDeep d x.tries (operand d) (I ++ rest) := by
  induction d generalizing I x rest with
  | zero =>
    refine ⟨x.span.first, ?_, ?_⟩
    · cases x with
      | call span f args => cases args <;> rfl
      | _ => rfl
    · obtain ⟨first, hfirst, hmark⟩ := Option.map_eq_some_iff.mp h.spans.1
      simp [operand, Rule.refuse, Failure.atFront, List.head?_append, hfirst, hmark]
  | succ d ih =>
    simp only [FailsDeep, operand, Rule.read_delay, Rule.orElse_malformed]
    cases h with
    | @not m I x span value hspan =>
      obtain ⟨m', hm, hread⟩ := ih value (by simpa [Operand.need] using hneed) rest
      refine ⟨m', by rwa [Operand.tries, firstTry_inside], .inl ?_⟩
      have hkey : (Rule.keyword "NOT").read ((.keyword "NOT", m) :: I ++ rest) =
          .matched ⟨.single m, ()⟩ (I ++ rest) := Rule.keyword_matched.mpr ⟨m, rfl, rfl⟩
      exact Rule.andThen_malformed.mpr (.inr ⟨_, _, hkey,
        Step.bind_error.mpr (.inl (Rule.requireOr_error.mpr (.inl hread)))⟩)
    | @call f m₁ m₂ m₃ =>
      obtain rfl : d = 0 := by
        simp only [Operand.need, Expr.needAll] at hneed
        omega
      refine ⟨m₃, rfl, .inr ⟨by simp [negation_absent], .inl (call_malformed rfl)⟩⟩
    | @callWith f m₁ m₂ I m₃ args arguments =>
      have hone := arguments_one_le_need arguments
      have hdeep : d < Expr.needAll args := by
        simp only [Operand.need] at hneed
        omega
      obtain ⟨m', hm, hread⟩ :=
        expressions_tooDeep_of (reads_operand d) ih arguments hdeep ((.symbol ")", m₃) :: rest)
      refine ⟨m', ?_, .inr ⟨by simp [negation_absent], .inl ?_⟩⟩
      · obtain ⟨e, es, rfl⟩ := arguments.exists_cons
        rw [Operand.tries, firstTry_inside]
        exact hm
      · simp only [List.cons_append, List.append_assoc, List.nil_append]
        exact call_malformed hread
    | column h => simp [Operand.need] at hneed
    | literal h => simp [Operand.need] at hneed

theorem expression_tooDeep {d : Nat} {I : Input σ} {e} (h : ExpressionPhrase I e)
    (hneed : d < e.need) (rest : Input σ) : FailsDeep d e.tries (expression d) (I ++ rest) :=
  expressionOf_tooDeep (reads_operand d) operand_tooDeep h hneed rest

theorem expressions_tooDeep {d : Nat} {I : Input σ} {list} (h : CommaPhrase ExpressionPhrase I list)
    (hneed : d < Expr.needAll list) (rest : Input σ) :
    FailsDeep d (Expr.triesAll list) ((expression d).commaList .expression) (I ++ rest) :=
  expressions_tooDeep_of (reads_operand d) operand_tooDeep h hneed rest

/-! ## Clauses and statements -/

/-- What begins with a keyword is broken where the rest of it is. -/
theorem keyword_malformed {word : String} {m : σ} {I : Input σ} {next : _ → Step σ α} {failure}
    (h : (next ⟨.single m, ()⟩).read I = .error failure) :
    ((Rule.keyword word).andThen next).read ((.keyword word, m) :: I) = .malformed failure :=
  Rule.andThen_malformed.mpr (.inr ⟨_, I, Rule.keyword_matched.mpr ⟨m, rfl, rfl⟩, h⟩)

/-- FROM is read, and WHERE is not. -/
theorem clauses_tooDeep {d : Nat} {I : Input σ} {c} (h : ClausesPhrase I c) (hneed : d < c.need)
    (rest : Input σ) :
    ∃ m, firstTry d c.tries = some m ∧
      (clauses d).read (I ++ rest) = .error ⟨.tooDeep, some m⟩ := by
  cases h with
  | @intro I J K tables filter order hfrom hwhere horder =>
    cases hwhere with
    | absent => simp [Clauses.need] at hneed
    | present hwhere =>
      cases hwhere with
      | @intro m' J condition span expression hspan =>
        obtain ⟨m, hm, hread⟩ := expression_tooDeep expression hneed (K ++ rest)
        have hstop : ∀ {continues : Kind → Bool}, continues (.keyword "WHERE") = false →
            Stops continues ((.keyword "WHERE", m') :: (J ++ (K ++ rest))) := stops_cons.mpr
        have hfrom := optional_complete reads_fromClause hfrom (hstop (by decide))
          (fromClause_absent (hstop (by decide)))
        have hwhere : (whereClause d).read ((.keyword "WHERE", m') :: (J ++ (K ++ rest))) =
            .malformed ⟨.tooDeep, some m⟩ :=
          keyword_malformed (Step.bind_error.mpr (.inl (Rule.requireOr_error.mpr (.inl hread))))
        simp only [List.append_assoc, List.cons_append]
        exact ⟨m, hm, Step.bind_error.mpr (.inr ⟨tables, _, hfrom,
          Step.bind_error.mpr (.inl (Rule.optional_error.mpr hwhere))⟩)⟩

/-- The list comes first. If it fits in, it is the clauses that do not. -/
theorem selectStatement_tooDeep {d : Nat} {m' : σ} {I J rest : Input σ} {list c}
    (hlist : CommaPhrase ExpressionPhrase I list) (hc : ClausesPhrase J c)
    (hneed : d < max (Expr.needAll list) c.need) (hstop : Stops Kind.continuesStatement rest) :
    FailsDeep d (Expr.triesAll list ++ c.tries) (selectStatement d)
      ((.keyword "SELECT", m') :: (I ++ (J ++ rest))) := by
  rw [FailsDeep, firstTry_append]
  by_cases hfits : Expr.needAll list ≤ d
  · have hclauses : d < c.need := by omega
    obtain ⟨m, hm, hread⟩ := clauses_tooDeep hc hclauses rest
    have hnone := firstTry_eq_none fun t ht => Nat.le_trans (Expr.triesAll_le list t ht) hfits
    obtain ⟨first, more, rfl⟩ := hlist.exists_cons
    have hfound := Rule.optional_ok.mpr (.inr ⟨(first, more), rfl,
      (reads_expressions (reads_operand d)).complete ⟨hlist, hfits⟩ (hc.stops_expressions hstop)⟩)
    exact ⟨m, by rwa [hnone], keyword_malformed (Step.bind_error.mpr (.inr ⟨_, _, hfound,
      Step.bind_error.mpr (.inl hread)⟩))⟩
  · obtain ⟨m, hm, hread⟩ := expressions_tooDeep hlist (Nat.lt_of_not_le hfits) (J ++ rest)
    exact ⟨m, by rw [hm]; rfl,
      keyword_malformed (Step.bind_error.mpr (.inl (Rule.optional_error.mpr hread)))⟩

/-- All before the values is read. -/
theorem insertStatement_tooDeep {d : Nat} {m₁ m₂ m₃ m₄ m₅ m₆ : σ} {I J K : Input σ}
    {table columns values} (hinto : TablePhrase I table)
    (hcolumns : CommaPhrase ColumnPhrase J columns)
    (hvalues : CommaPhrase ExpressionPhrase K values) (hneed : d < Expr.needAll values)
    (rest : Input σ) :
    FailsDeep d (Expr.triesAll values) (insertStatement d)
      ((.keyword "INSERT", m₁) :: (.keyword "INTO", m₂) :: (I ++ (.symbol "(", m₃) :: (J ++
        (.symbol ")", m₄) :: (.keyword "VALUES", m₅) :: (.symbol "(", m₆) :: (K ++ rest)))) := by
  obtain ⟨m, hm, hread⟩ := expressions_tooDeep hvalues hneed rest
  obtain ⟨column, columns, rfl⟩ := hcolumns.exists_cons
  have hkeyword : ∀ {word cause} {m : σ} {I : Input σ},
      ((Rule.keyword word).require cause).read ((.keyword word, m) :: I) =
        .ok (⟨.single m, ()⟩, I) := fun {_ _ m _} =>
    Rule.require_ok.mpr (Rule.keyword_matched.mpr ⟨m, rfl, rfl⟩)
  have hsymbol : ∀ {text cause} {m : σ} {I : Input σ},
      ((Rule.symbol text).require cause).read ((.symbol text, m) :: I) =
        .ok (⟨.single m, ()⟩, I) := fun {_ _ m _} =>
    Rule.require_ok.mpr (Rule.symbol_matched.mpr ⟨m, rfl, rfl⟩)
  refine ⟨m, hm, keyword_malformed ?_⟩
  refine Step.bind_error.mpr (.inr ⟨_, _, hkeyword, ?_⟩)
  refine Step.bind_error.mpr (.inr ⟨table, _,
    Rule.require_ok.mpr (reads_tableRef.complete hinto (stops_cons.mpr (by decide))), ?_⟩)
  refine Step.bind_error.mpr (.inr ⟨_, _, hsymbol, ?_⟩)
  refine Step.bind_error.mpr (.inr ⟨(column, columns), _, Rule.require_ok.mpr
    ((reads_commaList reads_columnRef (by decide) .column).complete hcolumns
      (stops_cons.mpr (by decide))), ?_⟩)
  refine Step.bind_error.mpr (.inr ⟨_, _, hsymbol, ?_⟩)
  refine Step.bind_error.mpr (.inr ⟨_, _, hkeyword, ?_⟩)
  refine Step.bind_error.mpr (.inr ⟨_, _, hsymbol, ?_⟩)
  exact Step.bind_error.mpr (.inl (Rule.requireOr_error.mpr (.inl hread)))

/-- DELETE is as deep as its clauses. -/
theorem deleteStatement_tooDeep {d : Nat} {m' : σ} {J : Input σ} {c} (hc : ClausesPhrase J c)
    (hneed : d < c.need) (rest : Input σ) :
    FailsDeep d c.tries (deleteStatement d) ((.keyword "DELETE", m') :: (J ++ rest)) := by
  obtain ⟨m, hm, hread⟩ := clauses_tooDeep hc hneed rest
  exact ⟨m, hm, keyword_malformed (Step.bind_error.mpr (.inr ⟨_, _, rfl,
    Step.bind_error.mpr (.inl hread)⟩))⟩

end Grammar

end SqlScript

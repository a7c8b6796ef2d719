import SqlScript.Proofs.Grammar.Phrase

/-!
# How deep operands lie inside one another

`need` is the smallest depth limit under which a tree can be read. Looking for an operand counts
even where there is none, so a call without arguments and a bare SELECT need room for one.
-/

namespace SqlScript

variable {α : Type}

mutual

/-- An operand itself counts. In parentheses without arguments, one is looked for all the same. -/
def Operand.need : Operand α → Nat
  | .not _ x => x.need + 1
  | .call _ _ args => max 1 (Expr.needAll args) + 1
  | .atom _ _ => 1

/-- Operands side by side need no more room than the deepest of them. -/
def Expr.need : Expr α → Nat
  | .postfixed _ stack => Item.needAll stack

def Expr.needAll : List (Expr α) → Nat
  | [] => 0
  | e :: es => max e.need (Expr.needAll es)

def Item.need : Item α → Nat
  | .operand x => x.need
  | .operator _ => 0

def Item.needAll : List (Item α) → Nat
  | [] => 0
  | i :: is => max i.need (Item.needAll is)

end

/-- Only WHERE has operands in it. -/
def Clauses.need (c : Clauses α) : Nat := c.filter.elim 0 fun condition => condition.node.need

namespace Statement

/-- SELECT alone looks for an operand behind itself, and USE for none. -/
def need : Statement α → Nat
  | use _ _ => 0
  | select _ list clauses =>
    max (max 1 (Expr.needAll list)) (clauses.elim 0 fun kept => kept.node.need)
  | insert _ _ _ values => Expr.needAll values
  | delete _ kept => kept.node.need

/-- Each statement begins with all the room there is. -/
def needAll : List (Statement α) → Nat
  | [] => 0
  | s :: statements => max s.need (needAll statements)

end Statement

/-- Room for a list is room for each of its expressions. -/
theorem Expr.needAll_le {es : List (Expr α)} {d : Nat} :
    Expr.needAll es ≤ d ↔ ∀ e ∈ es, e.need ≤ d := by
  induction es with
  | nil => simp [Expr.needAll]
  | cons e es ih => rw [Expr.needAll, Nat.max_le, ih, List.forall_mem_cons]

/-- Room for a stack is room for each of its items. -/
theorem Item.needAll_le {is : List (Item α)} {d : Nat} :
    Item.needAll is ≤ d ↔ ∀ i ∈ is, i.need ≤ d := by
  induction is with
  | nil => simp [Item.needAll]
  | cons i is ih => rw [Item.needAll, Nat.max_le, ih, List.forall_mem_cons]

/-- Room for a script is room for each of its statements. -/
theorem Statement.needAll_le {ss : List (Statement α)} {d : Nat} :
    Statement.needAll ss ≤ d ↔ ∀ s ∈ ss, s.need ≤ d := by
  induction ss with
  | nil => simp [Statement.needAll]
  | cons s ss ih => rw [Statement.needAll, Nat.max_le, ih, List.forall_mem_cons]

/-- No operand fits in where there is no room. -/
theorem Operand.one_le_need (x : Operand α) : 1 ≤ x.need := by
  cases x <;> simp [Operand.need]

/-- An arranged chain needs what its operands need. -/
theorem need_postfixed_le {span : α} {t : Arrangement α} {first : Operand α}
    {links : List (Spanned α Operator × Operand α)} {d : Nat}
    (h : t.inorder = chainItems first links) :
    (Expr.postfixed span t.postorder).need ≤ d ↔
      first.need ≤ d ∧ ∀ l ∈ links, l.2.need ≤ d := by
  have hitems : (∀ i ∈ t.postorder, i.need ≤ d) ↔ ∀ i ∈ chainItems first links, i.need ≤ d := by
    simp [Arrangement.mem_postorder_iff, h]
  rw [Expr.need, Item.needAll_le, hitems, forall_mem_chainItems]
  simp [Item.need]

namespace Grammar

variable {σ : Type}

/-! ## Needs and lengths

No tree needs more than the tokens it was read from. -/

mutual

/-- Each operand inside another has a token before it that is not its own: NOT, or the name of a
call. -/
theorem OperandPhrase.need_le {I : Input σ} {x} (h : OperandPhrase I x) : x.need ≤ I.length := by
  match h with
  | .not value _ => simpa [Operand.need] using value.need_le
  | .call => simp [Operand.need, Expr.needAll]
  | .callWith arguments =>
    have := arguments_need_le arguments
    simp only [Operand.need, List.length_cons, List.length_append, List.length_nil]
    omega
  | .column h =>
    rw [Operand.need]
    exact List.length_pos_iff.mpr h.spans.ne_nil
  | .literal _ => simp [Operand.need]

/-- The operands of a chain are pieces of it. -/
theorem ChainPhrase.need_le {I : Input σ} {x links} (h : ChainPhrase I x links) :
    x.need ≤ I.length ∧ ∀ l ∈ links, l.2.need ≤ I.length := by
  match h with
  | .single first => exact ⟨first.need_le, by simp⟩
  | .link first _ more =>
    have hfirst := first.need_le
    obtain ⟨hy, hlinks⟩ := more.need_le
    simp only [List.length_append, List.length_cons, List.forall_mem_cons]
    refine ⟨by omega, by omega, fun l hl => ?_⟩
    have := hlinks l hl
    omega

theorem ExpressionPhrase.need_le {I : Input σ} {e} (h : ExpressionPhrase I e) :
    e.need ≤ I.length := by
  match h with
  | .intro chain _ _ inorder => exact (need_postfixed_le inorder).mpr chain.need_le

/-- And so are the arguments of a call. -/
theorem arguments_need_le {I : Input σ} {args} (h : CommaPhrase ExpressionPhrase I args) :
    Expr.needAll args ≤ I.length := by
  match h with
  | .single first => simpa [Expr.needAll] using first.need_le
  | .cons first more =>
    have hfirst := first.need_le
    have hmore := arguments_need_le more
    simp only [Expr.needAll, List.length_append, List.length_cons]
    omega

end

/-- An expression has an operand. -/
theorem ExpressionPhrase.one_le_need {I : Input σ} {e} (h : ExpressionPhrase I e) :
    1 ≤ e.need := by
  cases h with
  | @intro _ first _ _ _ _ _ _ inorder =>
    exact Nat.le_trans first.one_le_need ((need_postfixed_le inorder).mp (Nat.le_refl _)).1

/-- A list has an expression, if it is one of a statement or between parentheses. -/
theorem arguments_one_le_need {I : Input σ} {args} (h : CommaPhrase ExpressionPhrase I args) :
    1 ≤ Expr.needAll args := by
  cases h with
  | single first => exact Nat.le_trans first.one_le_need (Nat.le_max_left _ _)
  | cons first _ => exact Nat.le_trans first.one_le_need (Nat.le_max_left _ _)

/-- The keyword of WHERE is a token to spare. -/
theorem ClausesPhrase.need_le {I : Input σ} {c} (h : ClausesPhrase I c) : c.need ≤ I.length := by
  cases h with
  | intro _ where? _ =>
    cases where? with
    | absent => simp [Clauses.need]
    | present h =>
      cases h with
      | intro expression _ =>
        have := expression.need_le
        simp only [Clauses.need, Option.elim_some, List.length_append, List.length_cons]
        omega

/-- Every statement has as many tokens as it needs room for operands. SELECT alone makes this exact.
-/
theorem StatementPhrase.need_le {I : Input σ} {s} (h : StatementPhrase I s) :
    s.need ≤ I.length := by
  cases h with
  | use => simp [Statement.need]
  | bareSelect => simp [Statement.need, Expr.needAll]
  | select expressions clauses _ _ _ =>
    have hlist := arguments_need_le expressions
    have hclauses := clauses.need_le
    simp only [Statement.need, Option.elim_some, List.length_cons, List.length_append]
    omega
  | selectList expressions clauses _ _ =>
    have hlist := arguments_need_le expressions
    simp only [Statement.need, Option.elim_none, List.length_cons, List.length_append]
    omega
  | insert into columnList valueList =>
    have hvalues := arguments_need_le valueList
    simp only [Statement.need, List.length_cons, List.length_append, List.length_nil]
    omega
  | delete clauses _ _ _ =>
    have := clauses.need_le
    simp only [Statement.need, List.length_cons]
    omega

/-- So a limit above the number of tokens is none. -/
theorem ScriptPhrase.need_le {I : Input σ} {ss} (h : ScriptPhrase I ss) :
    Statement.needAll ss ≤ I.length := by
  induction h with
  | nil => simp [Statement.needAll]
  | semicolon more ih =>
    simp only [List.length_cons]
    omega
  | cons first more ih =>
    have := first.need_le
    simp only [Statement.needAll, List.length_append]
    omega

end Grammar

end SqlScript

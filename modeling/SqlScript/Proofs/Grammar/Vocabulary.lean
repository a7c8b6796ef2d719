import SqlScript.Proofs.Grammar.Reads

/-!
# The words that expressions are made of

What has no place in an expression, a name or a list of these does not occur in one. Semicolons,
and the keywords that begin clauses and statements, are of that sort.
-/

namespace SqlScript

/-- Can a token of this kind stand in an expression? -/
def Kind.inExpression (kind : Kind) : Bool :=
  kind.startsOperand || (Operator.ofKind? kind).isSome ||
    kind ∈ [.symbol ".", .symbol "(", .symbol ")", .symbol ","]

namespace Grammar

/-- A literal is an operand by itself. -/
theorem startsOperand_of_literalOf {kind : Kind} {value : Atom} (h : literalOf kind = some value) :
    kind.startsOperand = true := by
  cases kind <;> simp [Kind.startsOperand, h]

variable {σ α : Type} {kind : Kind}

/-- No token is of this kind. -/
def Lacks (kind : Kind) (I : Input σ) : Prop := ∀ t ∈ I, t.1 ≠ kind

@[simp] theorem lacks_nil : Lacks kind ([] : Input σ) := by simp [Lacks]

@[simp] theorem lacks_cons {first : Kind} {m : σ} {I : Input σ} :
    Lacks kind ((first, m) :: I) ↔ first ≠ kind ∧ Lacks kind I := by
  simp [Lacks]

@[simp] theorem lacks_append {I J : Input σ} :
    Lacks kind (I ++ J) ↔ Lacks kind I ∧ Lacks kind J := by
  simp [Lacks, or_imp, forall_and]

/-- A kind that is not in expressions is none of those that are. -/
theorem ne_of_inExpression {first : Kind} (h : kind.inExpression = false)
    (hfirst : first.inExpression = true) : first ≠ kind := by
  rintro rfl
  simp [h] at hfirst

theorem QualifiedPhrase.lacks {I : Input σ} {q} (h : QualifiedPhrase I q)
    (hkind : kind.inExpression = false) : Lacks kind I := by
  cases h <;> simp [ne_of_inExpression hkind, Kind.inExpression, Kind.startsOperand]

theorem TablePhrase.lacks {I : Input σ} {t} (h : TablePhrase I t)
    (hkind : kind.inExpression = false) : Lacks kind I :=
  QualifiedPhrase.lacks h hkind

theorem ColumnPhrase.lacks {I : Input σ} {c} (h : ColumnPhrase I c)
    (hkind : kind.inExpression = false) : Lacks kind I :=
  QualifiedPhrase.lacks h hkind

/-- A list brings in commas, which expressions have anyway. -/
theorem CommaPhrase.lacks {item : Input σ → α → Prop} {I : Input σ} {xs}
    (h : CommaPhrase item I xs) (hkind : kind.inExpression = false)
    (hitem : ∀ {J x}, item J x → Lacks kind J) : Lacks kind I := by
  induction h with
  | single first => exact hitem first
  | cons first _ ih =>
    exact lacks_append.mpr ⟨hitem first, lacks_cons.mpr ⟨ne_of_inExpression hkind (by decide), ih⟩⟩

mutual

/-- By induction over the phrases of an expression. -/
theorem OperandPhrase.lacks {I : Input σ} {x} (h : OperandPhrase I x)
    (hkind : kind.inExpression = false) : Lacks kind I := by
  match h with
  | .not value _ =>
    exact lacks_cons.mpr ⟨ne_of_inExpression hkind (by decide), value.lacks hkind⟩
  | .call =>
    simp [ne_of_inExpression hkind, Kind.inExpression, Kind.startsOperand]
  | .callWith arguments =>
    simpa [ne_of_inExpression hkind, Kind.inExpression, Kind.startsOperand] using
      arguments_lack arguments hkind
  | .column h => exact h.lacks hkind
  | .literal hvalue =>
    refine lacks_cons.mpr ⟨ne_of_inExpression hkind ?_, lacks_nil⟩
    simp [Kind.inExpression, startsOperand_of_literalOf hvalue]

theorem ChainPhrase.lacks {I : Input σ} {x links} (h : ChainPhrase I x links)
    (hkind : kind.inExpression = false) : Lacks kind I := by
  match h with
  | .single first => exact first.lacks hkind
  | .link first operator more =>
    refine lacks_append.mpr ⟨first.lacks hkind, lacks_cons.mpr ⟨?_, more.lacks hkind⟩⟩
    exact ne_of_inExpression hkind (by simp [Kind.inExpression, operator])

theorem ExpressionPhrase.lacks {I : Input σ} {e} (h : ExpressionPhrase I e)
    (hkind : kind.inExpression = false) : Lacks kind I := by
  match h with
  | .intro chain _ _ _ => exact chain.lacks hkind

/-- And so of the arguments of a call. -/
theorem arguments_lack {I : Input σ} {args} (h : CommaPhrase ExpressionPhrase I args)
    (hkind : kind.inExpression = false) : Lacks kind I := by
  match h with
  | .single first => exact first.lacks hkind
  | .cons first more =>
    exact lacks_append.mpr ⟨first.lacks hkind,
      lacks_cons.mpr ⟨ne_of_inExpression hkind (by decide), arguments_lack more hkind⟩⟩

end

end Grammar

end SqlScript

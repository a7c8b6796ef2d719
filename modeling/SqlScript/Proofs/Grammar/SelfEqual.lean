import SqlScript.Proofs.Binary64.Exact
import SqlScript.Proofs.Grammar.Phrase
import SqlScript.Proofs.Scan.Split
import SqlScript.Tree.Equality

/-!
# Trees that equal themselves

Only what is not a number differs from itself. A tree has no such thing in it unless its tokens
have, and the tokens of a source have not.
-/

namespace SqlScript

open Grammar

variable {σ α : Type}

/-! ## Tokens -/

/-- No spelling is of something that is not a number, and only that differs from itself. -/
theorem Spelled.kind_same {raw rest : List Char} {kind : Kind} (h : Spelled raw kind rest) :
    kind.same kind = true := by
  cases h with
  | integer | decimal =>
    simp [Kind.same, Binary64.same_self, Binary64.ofDecimal, Binary64.isNaN_ofIndex]
  | _ => simp [Kind.same]

/-- So all pieces of a text are of kinds that equal themselves. -/
theorem Splits.kind_same {ps : List Piece} {rest : List Char} (h : Splits ps rest) :
    ∀ p ∈ ps, p.kind.same p.kind = true := by
  induction h with
  | nil => simp
  | cons _ hspelled _ ih => exact List.forall_mem_cons.mpr ⟨hspelled.kind_same, ih⟩

/-- The tokens of a source equal themselves. -/
theorem Source.kind_same {source : Source} {ts : List Token} (h : source.tokens = .ok ts) :
    ∀ t ∈ ts, t.kind.same t.kind = true := by
  obtain ⟨ps, w, hcut, rfl⟩ := source.exists_split h
  intro t ht
  have hkind : t.kind ∈ ps.map Piece.kind := by
    rw [← Piece.kinds_tokens source 0]
    exact List.mem_map_of_mem ht
  obtain ⟨p, hp, heq⟩ := List.mem_map.mp hkind
  rw [← heq]
  exact hcut.splits.kind_same p hp

@[simp] theorem Kind.same_keyword (word : String) : (keyword word).same (keyword word) = true := by
  simp [same]

@[simp] theorem Kind.same_symbol (text : String) : (symbol text).same (symbol text) = true := by
  simp [same]

/-! ## Lists -/

/-- A list equals itself if and only if all its expressions do. -/
theorem Expr.sameAll_self {es : List (Expr α)} :
    Expr.sameAll es es = true ↔ ∀ e ∈ es, e.same e = true := by
  induction es with
  | nil => simp [Expr.sameAll]
  | cons e es ih => rw [Expr.sameAll, Bool.and_eq_true, ih, List.forall_mem_cons]

/-- Likewise for stacks. -/
theorem Item.sameAll_self {is : List (Item α)} :
    Item.sameAll is is = true ↔ ∀ i ∈ is, i.same i = true := by
  induction is with
  | nil => simp [Item.sameAll]
  | cons i is ih => rw [Item.sameAll, Bool.and_eq_true, ih, List.forall_mem_cons]

/-- Likewise for any lists that are compared entry by entry. -/
theorem sameList_self {same : α → α → Bool} {xs : List α} :
    sameList same xs xs = true ↔ ∀ x ∈ xs, same x x = true := by
  induction xs with
  | nil => simp [sameList]
  | cons x xs ih => rw [sameList, Bool.and_eq_true, ih, List.forall_mem_cons]

theorem nodes_same_self {δ : Type} [BEq δ] [ReflBEq δ] (xs : List (Spanned α δ)) :
    sameList (Spanned.same (· == ·)) xs xs = true :=
  sameList_self.mpr fun _ _ => beq_self_eq_true _

namespace Grammar

/-! ## Phrases -/

/-- Tokens that equal themselves. -/
def Comparable (I : Input σ) : Prop := ∀ t ∈ I, t.1.same t.1 = true

@[simp] theorem comparable_nil : Comparable ([] : Input σ) := by simp [Comparable]

@[simp] theorem comparable_cons {kind : Kind} {m : σ} {I : Input σ} :
    Comparable ((kind, m) :: I) ↔ kind.same kind = true ∧ Comparable I := by
  simp [Comparable]

@[simp] theorem comparable_append {I J : Input σ} :
    Comparable (I ++ J) ↔ Comparable I ∧ Comparable J := by
  simp [Comparable, or_imp, forall_and]

/-- A literal is as equal to itself as its token is. -/
theorem literalOf_same {kind : Kind} {value : Atom} (h : literalOf kind = some value)
    (hkind : kind.same kind = true) : value.same value = true := by
  unfold literalOf at h
  split at h <;> cases h
  · exact hkind
  all_goals simp [Atom.same]

mutual

/-- By induction over the phrases of an expression: all its numbers are those of its tokens. -/
theorem OperandPhrase.same {I : Input σ} {x} (h : OperandPhrase I x) (hI : Comparable I) :
    x.same x = true := by
  match h with
  | .not value _ => exact value.same (comparable_cons.mp hI).2
  | .call => simp [Operand.same, Expr.sameAll]
  | .callWith arguments =>
    simp only [comparable_cons, comparable_append] at hI
    simpa [Operand.same] using arguments_same arguments hI.2.2.1
  | .column _ => simp [Operand.same, Atom.same]
  | .literal hvalue => exact literalOf_same hvalue (comparable_cons.mp hI).1

theorem ChainPhrase.same {I : Input σ} {x links} (h : ChainPhrase I x links) (hI : Comparable I) :
    x.same x = true ∧ ∀ l ∈ links, l.2.same l.2 = true := by
  match h with
  | .single first => exact ⟨first.same hI, by simp⟩
  | .link first _ more =>
    simp only [comparable_append, comparable_cons] at hI
    exact ⟨first.same hI.1, List.forall_mem_cons.mpr (more.same hI.2.2)⟩

theorem ExpressionPhrase.same {I : Input σ} {e} (h : ExpressionPhrase I e) (hI : Comparable I) :
    e.same e = true := by
  match h with
  | @ExpressionPhrase.intro _ _ first links span t chain _ _ inorder =>
    have hitems : ∀ i ∈ chainItems first links, i.same i = true := by
      rw [forall_mem_chainItems]
      obtain ⟨hfirst, hlinks⟩ := chain.same hI
      exact ⟨hfirst, fun l hl => ⟨by simp [Item.same], hlinks l hl⟩⟩
    rw [Expr.same, Item.sameAll_self]
    intro i hi
    exact hitems i (inorder ▸ Arrangement.mem_postorder_iff.mp hi)

/-- The commas between expressions are of no account. -/
theorem arguments_same {I : Input σ} {args} (h : CommaPhrase ExpressionPhrase I args)
    (hI : Comparable I) : Expr.sameAll args args = true := by
  match h with
  | .single first => simpa [Expr.sameAll] using first.same hI
  | .cons first more =>
    simp only [comparable_append, comparable_cons] at hI
    rw [Expr.sameAll, first.same hI.1, arguments_same more hI.2.2, Bool.and_self]

end

/-- Tables and columns are names. Only WHERE has numbers in it. -/
theorem ClausesPhrase.same {I : Input σ} {c} (h : ClausesPhrase I c) (hI : Comparable I) :
    c.same c = true := by
  cases h with
  | intro from? where? order? =>
    simp only [comparable_append] at hI
    simp only [Clauses.same, Bool.and_eq_true]
    refine ⟨⟨?_, ?_⟩, ?_⟩
    · cases from? with
      | absent => rfl
      | present _ => exact nodes_same_self _
    · cases where? with
      | absent => rfl
      | present h =>
        cases h with
        | intro expression _ => exact expression.same (comparable_cons.mp hI.2.1).2
    · cases order? with
      | absent => rfl
      | present _ => exact nodes_same_self _

theorem StatementPhrase.same {I : Input σ} {s} (h : StatementPhrase I s) (hI : Comparable I) :
    s.same s = true := by
  cases h with
  | use => simp [Statement.same]
  | bareSelect => simp [Statement.same, Expr.sameAll, sameOption]
  | select expressions clauses _ _ _ =>
    simp only [comparable_cons, comparable_append] at hI
    simp only [Statement.same, arguments_same expressions hI.2.1, Bool.true_and]
    exact clauses.same hI.2.2
  | selectList expressions _ _ _ =>
    simp only [comparable_cons, comparable_append] at hI
    simp [Statement.same, arguments_same expressions hI.2.1, sameOption]
  | insert into columnList valueList =>
    simp only [comparable_cons, comparable_append, Kind.same_keyword, Kind.same_symbol,
      true_and] at hI
    simp [Statement.same, nodes_same_self, arguments_same valueList hI.2.2.1]
  | delete clauses _ _ _ => exact clauses.same (comparable_cons.mp hI).2

/-- A script equals itself if the tokens that it is made of do. -/
theorem ScriptPhrase.same {I : Input σ} {ss} (h : ScriptPhrase I ss) (hI : Comparable I) :
    ∀ s ∈ ss, s.same s = true := by
  induction h with
  | nil => simp
  | semicolon _ ih => exact ih (comparable_cons.mp hI).2
  | cons first _ ih =>
    rw [comparable_append] at hI
    exact List.forall_mem_cons.mpr ⟨first.same hI.1, ih hI.2⟩

end Grammar

end SqlScript

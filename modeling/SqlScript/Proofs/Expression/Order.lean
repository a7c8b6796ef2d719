import SqlScript.Proofs.Grammar.Nodes
import SqlScript.Reader

/-!
# The order in which expressions are evaluated

The stack of every expression that is read, and of every expression inside the calls in it, runs to
one arrangement of its own chain: the one that precedence asks for.
-/

namespace SqlScript

variable {σ α : Type}

/-- The arguments of the call that an operand is, behind any number of NOTs. -/
def Operand.arguments : Operand α → List (Expr α)
  | .not _ x => x.arguments
  | .call _ _ args => args
  | .atom _ _ => []

/-- The expressions that are arguments of the calls in a chain. -/
def Expr.arguments (e : Expr α) : List (Expr α) :=
  e.stack.flatMap fun
    | .operand x => x.arguments
    | .operator _ => []

/-- An expression itself, the arguments of its calls, their arguments and so on. -/
inductive Expr.Within (e : Expr α) : Expr α → Prop
  | self : e.Within e
  | argument {inner arg} (h : e.Within inner) (harg : arg ∈ inner.arguments) : e.Within arg

theorem Node.Within.argument {n : Node α} {x : Operand α} {arg} (h : n.Within (.operand x))
    (harg : arg ∈ x.arguments) : n.Within (.expression arg) := by
  match x with
  | .not _ value => exact (h.child (List.mem_singleton.mpr rfl)).argument harg
  | .call _ _ args => exact h.child (List.mem_map_of_mem harg)
  | .atom _ _ => cases harg

theorem Expr.Within.node {e inner : Expr α} (h : e.Within inner) :
    (Node.expression e).Within (.expression inner) := by
  induction h with
  | self => exact .self
  | argument _ harg ih =>
    obtain ⟨item, hitem, harg⟩ := List.mem_flatMap.mp harg
    cases item with
    | operator o => cases harg
    | operand x => exact (ih.child (List.mem_map_of_mem hitem)).argument harg

namespace Grammar

/-- The stack of an expression is the postfix form of a chain of operands and operators, which the
given tokens are, arranged by precedence. -/
structure Evaluates (I : Input σ) (e : Expr (Span σ)) (first : Operand (Span σ))
    (links : List (Spanned (Span σ) Operator × Operand (Span σ))) (t : Arrangement (Span σ)) :
    Prop where
  chain : ChainPhrase I first links
  runs : Arrangement.run e.stack [] = some [t]
  inorder : t.inorder = chainItems first links
  nested : t.Nested
  unique : ∀ u : Arrangement (Span σ), u.Nested → u.inorder = chainItems first links → u = t
  stratified : t = Arrangement.stratify first links

theorem ExpressionPhrase.evaluates {I : Input σ} {e} (h : ExpressionPhrase I e) :
    ∃ first links t, Evaluates I e first links t := by
  cases h with
  | @intro _ first links span t chain _ nested inorder =>
    have hunique : ∀ u : Arrangement (Span σ), u.Nested → u.inorder = chainItems first links →
        u = t := fun u hu hitems => hu.unique nested (hitems.trans inorder.symm)
    obtain ⟨hnested, hitems⟩ := Arrangement.stratify_nested first links
    refine ⟨first, links, t, chain, ?_, inorder, nested, hunique, (hunique _ hnested hitems).symm⟩
    have hrun := Arrangement.run_postorder t [] []
    rwa [List.append_nil] at hrun

theorem ExpressionPhrase.within {I : Input σ} {e inner} (h : ExpressionPhrase I e)
    (hinner : e.Within inner) : ∃ J, J <:+: I ∧ ExpressionPhrase J inner := by
  obtain ⟨J, hJ, hphrase⟩ := (NodePhrase.expression h).within hinner.node
  cases hphrase with
  | expression hphrase => exact ⟨J, hJ, hphrase⟩

end Grammar

namespace Reader

open Grammar

/-- A rule that reads phrases takes the tokens between two indices. -/
theorem readAt_phrase {α : Type} {r : Reader} {rule : Rule Token α} {phrase continues}
    (hrule : rule.Reads phrase continues) {index next : Nat} {x : α}
    (h : r.readAt rule index = .ok (some (next, x))) :
    phrase ((r.input.take next).drop index) x := by
  rw [readAt] at h
  split at h
  · cases h
  · next value rest hread =>
    cases h
    obtain ⟨used, hused, hphrase⟩ := hrule.sound hread
    have hlength := congrArg List.length hused
    have hinput : r.input.length = r.tokens.length := List.length_map _
    rw [List.length_drop, List.length_append, hinput] at hlength
    have htake : r.tokens.length - rest.length - index = used.length := by omega
    rw [List.drop_take, hused, htake, List.take_left]
    exact hphrase
  · cases h

/-- An expression that is read at an index, up to the index behind it, evaluates its own tokens by
precedence, and the expressions inside it theirs. -/
theorem expression_evaluates {r : Reader} {index next : Nat} {e : Expr (Span Token)}
    (h : r.expression index = .ok (some (next, e))) :
    (∃ first links t, Evaluates ((r.input.take next).drop index) e first links t) ∧
      ∀ inner, e.Within inner → ∃ I, I <:+: (r.input.take next).drop index ∧
        ∃ first links t, Evaluates I inner first links t := by
  obtain ⟨hphrase, -⟩ := readAt_phrase (reads_expression r.maxDepth) h
  refine ⟨hphrase.evaluates, fun inner hinner => ?_⟩
  obtain ⟨I, hI, hinner⟩ := hphrase.within hinner
  exact ⟨I, hI, hinner.evaluates⟩

/-- Of `a + b * c - d < e` the product is worked out first, then the sum, then the difference. -/
theorem expression_evaluates_levels :
    let t (kind : Kind) (raw : String) (position : Nat) : Token :=
      ⟨kind, raw, position, ⟨"", "a+b*c-d<e"⟩⟩
    let name (text raw : String) (position : Nat) : Token := t (.name text) raw position
    let symbol (text : String) (position : Nat) : Token := t (.symbol text) text position
    let column (text raw : String) (position : Nat) : Item (Span Token) :=
      .operand (.atom (.single (name text raw position)) (.column ⟨none, text⟩))
    let operator (o : Operator) (position : Nat) : Item (Span Token) :=
      .operator ⟨.single (symbol o.symbol position), o⟩
    let e : Expr (Span Token) := .postfixed ⟨name "A" "a" 0, name "E" "e" 8⟩
      [column "A" "a" 0, column "B" "b" 2, column "C" "c" 4, operator .mul 3, operator .add 1,
        column "D" "d" 6, operator .sub 5, column "E" "e" 8, operator .lt 7]
    let r : Reader := ⟨name "A" "a" 0, [symbol "+" 1, name "B" "b" 2, symbol "*" 3, name "C" "c" 4,
      symbol "-" 5, name "D" "d" 6, symbol "<" 7, name "E" "e" 8], 1⟩
    r.expression 0 = .ok (some (9, e)) ∧ ∃ first links t, Evaluates r.input e first links t := by
  intro t name symbol column operator e r
  have h : r.expression 0 = .ok (some (9, e)) := by cbv
  exact ⟨h, (expression_evaluates h).1⟩

end Reader

end SqlScript

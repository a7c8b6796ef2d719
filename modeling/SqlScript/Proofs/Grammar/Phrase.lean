import SqlScript.Grammar.Statement
import SqlScript.Proofs.Expression.Arrangement

/-!
# The grammar, as phrases

What a piece of input may consist of, and the tree that it then is. A phrase says nothing about
how it is found: no rule is tried before another, nothing is taken back, and no depth is counted.
Every node carries the span of its own piece.

* script = (`;` | statement)*
* statement = USE name | SELECT | SELECT expression,+ clauses | DELETE clauses |
  INSERT INTO table `(` column,+ `)` VALUES `(` expression,+ `)`
* clauses = [FROM table,+] [WHERE expression] [ORDER BY column,+]
* table, column = name [`.` name]
* expression = operand (operator operand)*
* operand = NOT operand | name `(` [expression,+] `)` | column | literal
-/

namespace SqlScript

@[simp] theorem Span.through_self {σ : Type} (s : Span σ) : s.through s = s := rfl

/-- The span of a piece of input, from its first mark to its last. -/
def Spans {σ : Type} (input : Input σ) (span : Span σ) : Prop :=
  input.head?.map Prod.snd = some span.first ∧ input.getLast?.map Prod.snd = some span.last

namespace Spans

variable {σ : Type} {I J : Input σ} {s t : Span σ}

/-- A piece has one span at most. -/
theorem unique (hs : Spans I s) (ht : Spans I t) : s = t := by
  obtain ⟨first, last⟩ := s
  obtain ⟨hfirst, hlast⟩ := hs
  obtain ⟨hfirst', hlast'⟩ := ht
  rw [hfirst] at hfirst'
  rw [hlast] at hlast'
  simp_all

theorem single (kind : Kind) (m : σ) : Spans [(kind, m)] (.single m) := ⟨rfl, rfl⟩

theorem ne_nil (h : Spans I s) : I ≠ [] := by
  rintro rfl
  simp [Spans] at h

/-- From the beginning of one piece to the end of a later one. -/
theorem through (hs : Spans I s) (ht : Spans J t) (between : Input σ) :
    Spans (I ++ (between ++ J)) (s.through t) := by
  refine ⟨?_, ?_⟩
  · obtain ⟨first, more, rfl⟩ := List.exists_cons_of_ne_nil hs.ne_nil
    simpa [Spans, Span.through] using hs.1
  · have hlast := ht.2
    obtain ⟨last, hJ, heq⟩ := Option.map_eq_some_iff.mp hlast
    simp [List.getLast?_append, hJ, heq, Span.through]

/-- A token in front. -/
theorem cons (kind : Kind) (m : σ) (ht : Spans J t) :
    Spans ((kind, m) :: J) ((Span.single m).through t) :=
  (single kind m).through ht []

/-- Two pieces, one directly behind the other. -/
theorem append (hs : Spans I s) (ht : Spans J t) : Spans (I ++ J) (s.through t) :=
  hs.through ht []

end Spans

namespace Grammar

variable {σ : Type}

/-! ## Names and lists -/

/-- A name, or two with a dot between them. -/
inductive QualifiedPhrase : Input σ → Spanned (Span σ) (Option String × String) → Prop
  | plain {name m} : QualifiedPhrase [(.name name, m)] ⟨.single m, none, name⟩
  | dotted {qualifier name m₁ m₂ m₃} :
      QualifiedPhrase [(.name qualifier, m₁), (.symbol ".", m₂), (.name name, m₃)]
        ⟨⟨m₁, m₃⟩, some qualifier, name⟩

def TablePhrase (input : Input σ) (table : Spanned (Span σ) TableRef) : Prop :=
  QualifiedPhrase input ⟨table.span, table.node.database, table.node.table⟩

def ColumnPhrase (input : Input σ) (column : Spanned (Span σ) ColumnRef) : Prop :=
  QualifiedPhrase input ⟨column.span, column.node.table, column.node.column⟩

/-- At least one item, with commas between them. -/
inductive CommaPhrase {α : Type} (item : Input σ → α → Prop) : Input σ → List α → Prop
  | single {I x} (first : item I x) : CommaPhrase item I [x]
  | cons {I m J x xs} (first : item I x) (more : CommaPhrase item J xs) :
      CommaPhrase item (I ++ (.symbol ",", m) :: J) (x :: xs)

inductive OptionalPhrase {α : Type} (phrase : Input σ → α → Prop) : Input σ → Option α → Prop
  | absent : OptionalPhrase phrase [] none
  | present {I x} (h : phrase I x) : OptionalPhrase phrase I (some x)

/-! ## Expressions -/

mutual

/-- A call with no arguments is one of its own, as lists are never empty. -/
inductive OperandPhrase : Input σ → Operand (Span σ) → Prop
  | not {m I x span} (value : OperandPhrase I x) (hspan : Spans ((.keyword "NOT", m) :: I) span) :
      OperandPhrase ((.keyword "NOT", m) :: I) (.not span x)
  | call {f m₁ m₂ m₃} :
      OperandPhrase [(.name f, m₁), (.symbol "(", m₂), (.symbol ")", m₃)] (.call ⟨m₁, m₃⟩ f [])
  | callWith {f m₁ m₂ I m₃ args} (arguments : CommaPhrase ExpressionPhrase I args) :
      OperandPhrase ((.name f, m₁) :: (.symbol "(", m₂) :: (I ++ [(.symbol ")", m₃)]))
        (.call ⟨m₁, m₃⟩ f args)
  | column {I c} (h : ColumnPhrase I c) : OperandPhrase I (.atom c.span (.column c.node))
  | literal {kind m value} (h : literalOf kind = some value) :
      OperandPhrase [(kind, m)] (.atom (.single m) value)

/-- Operands with operators between them, in the order in which they stand. -/
inductive ChainPhrase :
    Input σ → Operand (Span σ) → List (Spanned (Span σ) Operator × Operand (Span σ)) → Prop
  | single {I x} (first : OperandPhrase I x) : ChainPhrase I x []
  | link {I kind m o J x y links} (first : OperandPhrase I x)
      (operator : Operator.ofKind? kind = some o) (more : ChainPhrase J y links) :
      ChainPhrase (I ++ (kind, m) :: J) x ((⟨.single m, o⟩, y) :: links)

/-- A chain, arranged by precedence and written in postfix order. -/
inductive ExpressionPhrase : Input σ → Expr (Span σ) → Prop
  | intro {I first links span} {t : Arrangement (Span σ)} (chain : ChainPhrase I first links)
      (hspan : Spans I span) (nested : t.Nested) (inorder : t.inorder = chainItems first links) :
      ExpressionPhrase I (.postfixed span t.postorder)

end

/-! ## Statements -/

/-- FROM and a list of tables. -/
inductive FromPhrase : Input σ → Spanned (Span σ) (List (Spanned (Span σ) TableRef)) → Prop
  | intro {m I tables span} (list : CommaPhrase TablePhrase I tables)
      (hspan : Spans ((.keyword "FROM", m) :: I) span) :
      FromPhrase ((.keyword "FROM", m) :: I) ⟨span, tables⟩

/-- WHERE and its condition. -/
inductive WherePhrase : Input σ → Spanned (Span σ) (Expr (Span σ)) → Prop
  | intro {m I condition span} (expression : ExpressionPhrase I condition)
      (hspan : Spans ((.keyword "WHERE", m) :: I) span) :
      WherePhrase ((.keyword "WHERE", m) :: I) ⟨span, condition⟩

/-- ORDER BY, two tokens, and a list of columns. -/
inductive OrderPhrase : Input σ → Spanned (Span σ) (List (Spanned (Span σ) ColumnRef)) → Prop
  | intro {m₁ m₂ I columns span} (list : CommaPhrase ColumnPhrase I columns)
      (hspan : Spans ((.keyword "ORDER", m₁) :: (.keyword "BY", m₂) :: I) span) :
      OrderPhrase ((.keyword "ORDER", m₁) :: (.keyword "BY", m₂) :: I) ⟨span, columns⟩

/-- All clauses may be absent. Their order is fixed. -/
inductive ClausesPhrase : Input σ → Clauses (Span σ) → Prop
  | intro {I J K tables filter order} (from? : OptionalPhrase FromPhrase I tables)
      (where? : OptionalPhrase WherePhrase J filter)
      (order? : OptionalPhrase OrderPhrase K order) :
      ClausesPhrase (I ++ (J ++ K)) ⟨tables, filter, order⟩

/-- Is FROM or WHERE among the clauses? -/
def Selective {α : Type} (c : Clauses α) : Prop := c.tables.isSome ∨ c.filter.isSome

/-- Clauses that count leave a node of their own, which spans them all. -/
inductive StatementPhrase : Input σ → Statement (Span σ) → Prop
  | use {m₁ name m₂} :
      StatementPhrase [(.keyword "USE", m₁), (.name name, m₂)] (.use ⟨m₁, m₂⟩ name)
  | bareSelect {m} : StatementPhrase [(.keyword "SELECT", m)] (.select (.single m) [] none)
  | select {m I J list c span inner} (expressions : CommaPhrase ExpressionPhrase I list)
      (clauses : ClausesPhrase J c) (selective : Selective c)
      (hspan : Spans ((.keyword "SELECT", m) :: (I ++ J)) span) (hinner : Spans J inner) :
      StatementPhrase ((.keyword "SELECT", m) :: (I ++ J)) (.select span list (some ⟨inner, c⟩))
  /-- An ORDER BY without FROM and WHERE leaves no node. -/
  | selectList {m I J list c span} (expressions : CommaPhrase ExpressionPhrase I list)
      (clauses : ClausesPhrase J c) (unselective : ¬ Selective c)
      (hspan : Spans ((.keyword "SELECT", m) :: (I ++ J)) span) :
      StatementPhrase ((.keyword "SELECT", m) :: (I ++ J)) (.select span list none)
  | insert {m₁ m₂ I m₃ J m₄ m₅ m₆ K m₇ table columns values} (into : TablePhrase I table)
      (columnList : CommaPhrase ColumnPhrase J columns)
      (valueList : CommaPhrase ExpressionPhrase K values) :
      StatementPhrase
        ((.keyword "INSERT", m₁) :: (.keyword "INTO", m₂) :: (I ++ (.symbol "(", m₃) :: (J ++
          (.symbol ")", m₄) :: (.keyword "VALUES", m₅) :: (.symbol "(", m₆) :: (K ++
            [(.symbol ")", m₇)]))))
        (.insert ⟨m₁, m₇⟩ table columns values)
  | delete {m J c span inner} (clauses : ClausesPhrase J c) (selective : Selective c)
      (hspan : Spans ((.keyword "DELETE", m) :: J) span) (hinner : Spans J inner) :
      StatementPhrase ((.keyword "DELETE", m) :: J) (.delete span ⟨inner, c⟩)

/-- Statements one after another; semicolons may stand before, between and behind them. -/
inductive ScriptPhrase : Input σ → List (Statement (Span σ)) → Prop
  | nil : ScriptPhrase [] []
  | semicolon {m I statements} (more : ScriptPhrase I statements) :
      ScriptPhrase ((.symbol ";", m) :: I) statements
  | cons {I J s statements} (first : StatementPhrase I s) (more : ScriptPhrase J statements) :
      ScriptPhrase (I ++ J) (s :: statements)

/-! ## What phrases span -/

theorem QualifiedPhrase.spans {I : Input σ} {q} (h : QualifiedPhrase I q) : Spans I q.span := by
  cases h with
  | plain => exact .single _ _
  | dotted => exact ⟨rfl, rfl⟩

theorem TablePhrase.spans {I : Input σ} {t} (h : TablePhrase I t) : Spans I t.span :=
  QualifiedPhrase.spans h

theorem ColumnPhrase.spans {I : Input σ} {c} (h : ColumnPhrase I c) : Spans I c.span :=
  QualifiedPhrase.spans h

theorem OperandPhrase.spans {I : Input σ} {x} (h : OperandPhrase I x) : Spans I x.span := by
  cases h with
  | not _ hspan => exact hspan
  | call => exact ⟨rfl, rfl⟩
  | @callWith f m₁ m₂ I m₃ args =>
    exact (Spans.single (.name f) m₁).through (.single (.symbol ")") m₃) ((.symbol "(", m₂) :: I)
  | column h => exact h.spans
  | literal => exact .single _ _

theorem ExpressionPhrase.spans {I : Input σ} {e} (h : ExpressionPhrase I e) : Spans I e.span := by
  cases h with
  | intro _ hspan _ _ => exact hspan

/-- The span of a chain, link by link. -/
theorem chainSpan_cons {β : Type} (x y : Operand (Span σ)) (o : β)
    (links : List (β × Operand (Span σ))) :
    chainSpan x ((o, y) :: links) = x.span.through (chainSpan y links) := by
  cases links with
  | nil => rfl
  | cons link links =>
    simp only [chainSpan, List.getLast?_cons_cons]
    cases h : (link :: links).getLast? with
    | none => simp at h
    | some last => rfl

/-- The span of a list, entry by entry. -/
theorem listSpan_cons {α : Type} (span : α → Span σ) (x y : α) (ys : List α) :
    listSpan span x (y :: ys) = (span x).through (listSpan span y ys) := by
  simp [listSpan, Span.through, List.getLast?_cons]

theorem ChainPhrase.spans {I : Input σ} {x links} (h : ChainPhrase I x links) :
    Spans I (chainSpan x links) := by
  match h with
  | .single first => exact first.spans
  | .link first operator more =>
    rw [chainSpan_cons]
    exact first.spans.through more.spans [_]

/-- No list is empty. -/
theorem CommaPhrase.exists_cons {α : Type} {item : Input σ → α → Prop} {I : Input σ} {xs}
    (h : CommaPhrase item I xs) : ∃ first more, xs = first :: more := by
  cases h <;> exact ⟨_, _, rfl⟩

theorem CommaPhrase.spans {α : Type} {item : Input σ → α → Prop} {span : α → Span σ}
    (hitem : ∀ {I x}, item I x → Spans I (span x)) {I : Input σ} {x xs}
    (h : CommaPhrase item I (x :: xs)) : Spans I (listSpan span x xs) := by
  generalize heq : x :: xs = items at h
  induction h generalizing x xs with
  | single first =>
    cases heq
    exact hitem first
  | cons first more ih =>
    cases heq
    obtain ⟨y, ys, rfl⟩ := more.exists_cons
    rw [listSpan_cons]
    exact (hitem first).through (ih rfl) [_]

end Grammar

end SqlScript

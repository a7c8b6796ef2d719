import SqlScript.Proofs.Grammar.Clauses
import SqlScript.Proofs.Tree.Node

/-!
# The pieces of the nodes of a tree

Every node is a phrase of its own. The pieces of its children lie side by side in its own piece
(`NodePhrase.laid`), and those of the items of an expression leave nothing between them
(`ExpressionPhrase.paved`).
-/

namespace SqlScript.Grammar

variable {σ α : Type}

inductive NodePhrase : Input σ → Node (Span σ) → Prop
  | statement {I s} (h : StatementPhrase I s) : NodePhrase I (.statement s)
  | clauses {I c span} (h : ClausesPhrase I c) (hspan : Spans I span) :
      NodePhrase I (.clauses ⟨span, c⟩)
  | tables {I c} (h : FromPhrase I c) : NodePhrase I (.tables c)
  | filter {I c} (h : WherePhrase I c) : NodePhrase I (.filter c)
  | order {I c} (h : OrderPhrase I c) : NodePhrase I (.order c)
  | table {I t} (h : TablePhrase I t) : NodePhrase I (.table t)
  | column {I c} (h : ColumnPhrase I c) : NodePhrase I (.column c)
  | expression {I e} (h : ExpressionPhrase I e) : NodePhrase I (.expression e)
  | operand {I x} (h : OperandPhrase I x) : NodePhrase I (.operand x)
  | operator {kind m o} (h : Operator.ofKind? kind = some o) :
      NodePhrase [(kind, m)] (.operator ⟨.single m, o⟩)

theorem StatementPhrase.spans {I : Input σ} {s} (h : StatementPhrase I s) : Spans I s.span := by
  cases h with
  | use => exact ⟨rfl, rfl⟩
  | bareSelect => exact .single _ _
  | select _ _ _ hspan _ => exact hspan
  | selectList _ _ _ hspan => exact hspan
  | insert => exact ⟨rfl, by simp [Statement.span, List.getLast?_cons]⟩
  | delete _ _ hspan _ => exact hspan

theorem NodePhrase.spans {I : Input σ} {n} (h : NodePhrase I n) : Spans I n.span := by
  cases h with
  | clauses _ hspan => exact hspan
  | operator => exact .single _ _
  | statement h | tables h | filter h | order h | table h | column h | expression h | operand h =>
    exact h.spans

/-! ## Side by side -/

/-- The pieces of nodes, one after another, with anything between them. -/
inductive Laid : Input σ → List (Node (Span σ)) → Prop
  | nil (gap) : Laid gap []
  | cons {I J n nodes} (gap) (first : NodePhrase I n) (more : Laid J nodes) :
      Laid (gap ++ (I ++ J)) (n :: nodes)

/-- The pieces of nodes, one after another, with nothing between them. -/
inductive Paved : Input σ → List (Node (Span σ)) → Prop
  | nil : Paved [] []
  | cons {I J n nodes} (first : NodePhrase I n) (more : Paved J nodes) :
      Paved (I ++ J) (n :: nodes)

namespace Laid

variable {I J : Input σ} {n : Node (Span σ)} {ns ms : List (Node (Span σ))}

theorem single (h : NodePhrase I n) : Laid I [n] := by
  simpa using Laid.cons [] h (.nil [])

theorem behind (h : Laid I ns) (before : Input σ) : Laid (before ++ I) ns := by
  cases h with
  | nil => exact .nil _
  | cons gap first more =>
    rw [← List.append_assoc]
    exact .cons _ first more

theorem append (h : Laid I ns) (h' : Laid J ms) : Laid (I ++ J) (ns ++ ms) := by
  induction h with
  | nil => exact h'.behind _
  | cons gap first _ ih =>
    rw [List.append_assoc, List.append_assoc]
    exact .cons gap first ih

theorem before (h : Laid I ns) (rest : Input σ) : Laid (I ++ rest) ns := by
  simpa using h.append (.nil rest)

theorem exists_infix (h : Laid I ns) (hn : n ∈ ns) : ∃ K, K <:+: I ∧ NodePhrase K n := by
  induction h with
  | nil => cases hn
  | @cons K J m nodes gap first _ ih =>
    rcases List.mem_cons.mp hn with rfl | hn
    · exact ⟨K, ⟨gap, J, by simp⟩, first⟩
    · obtain ⟨L, hL, hphrase⟩ := ih hn
      exact ⟨L, hL.trans ⟨gap ++ K, [], by simp⟩, hphrase⟩

end Laid

theorem Paved.laid {I : Input σ} {ns} (h : Paved I ns) : Laid I ns := by
  induction h with
  | nil => exact .nil []
  | cons first _ ih => exact .cons [] first ih

/-! ## The children of each node -/

theorem CommaPhrase.laid {item : Input σ → α → Prop} {node : α → Node (Span σ)}
    (hitem : ∀ {I x}, item I x → NodePhrase I (node x)) {I : Input σ} {xs}
    (h : CommaPhrase item I xs) : Laid I (xs.map node) := by
  induction h with
  | single first => exact .single (hitem first)
  | cons first _ ih => exact (Laid.single (hitem first)).append (ih.behind [_])

theorem OptionalPhrase.laid {phrase : Input σ → α → Prop} {node : α → Node (Span σ)}
    (hphrase : ∀ {I x}, phrase I x → NodePhrase I (node x)) {I : Input σ} {found}
    (h : OptionalPhrase phrase I found) : Laid I (found.map node).toList := by
  cases h with
  | absent => exact .nil _
  | present h => exact .single (hphrase h)

theorem ChainPhrase.paved {I : Input σ} {first links} (h : ChainPhrase I first links) :
    Paved I ((chainItems first links).map Node.ofItem) := by
  induction links generalizing I first with
  | nil =>
    cases h with
    | single hfirst => simpa [chainItems, Node.ofItem] using Paved.cons (.operand hfirst) .nil
  | cons link links ih =>
    cases h with
    | link hfirst hoperator hmore =>
      exact .cons (.operand hfirst) (.cons (.operator hoperator) (ih hmore))

/-- The items of an expression, in the order in which they stand. -/
theorem ExpressionPhrase.paved {I : Input σ} {e} (h : ExpressionPhrase I e) :
    ∃ items, items.Perm (Node.expression e).children ∧ Paved I items := by
  cases h with
  | @intro _ first links span t chain _ _ inorder =>
    refine ⟨_, ?_, chain.paved⟩
    rw [← inorder]
    exact t.postorder_perm.symm.map _

theorem OperandPhrase.laid {I : Input σ} {x} (h : OperandPhrase I x) :
    Laid I (Node.operand x).children := by
  cases h with
  | not value _ => exact (Laid.single (.operand value)).behind [_]
  | call => exact .nil _
  | callWith arguments => exact ((arguments.laid .expression).before [_]).behind [_, _]
  | column h => exact .single (.column h)
  | @literal kind m value hvalue =>
    cases value with
    | column ref => exact (literalOf_ne_column kind ref hvalue).elim
    | _ => exact .nil _

theorem ClausesPhrase.laid {I : Input σ} {span c} (h : ClausesPhrase I c) :
    Laid I (Node.clauses ⟨span, c⟩).children := by
  cases h with
  | intro hfrom hwhere horder =>
    exact (hfrom.laid .tables).append ((hwhere.laid .filter).append (horder.laid .order))

theorem StatementPhrase.laid {I : Input σ} {s} (h : StatementPhrase I s) :
    Laid I (Node.statement s).children := by
  cases h with
  | use => exact .nil _
  | bareSelect => exact .nil _
  | select hlist hc _ _ hinner =>
    exact ((hlist.laid .expression).append (.single (.clauses hc hinner))).behind [_]
  | selectList hlist => exact ((hlist.laid .expression).append (.nil _)).behind [_]
  | @insert m₁ m₂ I m₃ J m₄ m₅ m₆ K m₇ table columns values hinto hcolumns hvalues =>
    have hvalues : Laid ((.symbol ")", m₄) :: (.keyword "VALUES", m₅) :: (.symbol "(", m₆) ::
        (K ++ [(.symbol ")", m₇)])) (values.map .expression) :=
      ((hvalues.laid .expression).before [_]).behind [_, _, _]
    have hlists := ((hcolumns.laid .column).append hvalues).behind [(.symbol "(", m₃)]
    exact ((Laid.single (.table hinto)).append hlists).behind [_, _]
  | delete hc _ _ hinner => exact (Laid.single (.clauses hc hinner)).behind [_]

theorem ScriptPhrase.laid {I : Input σ} {ss} (h : ScriptPhrase I ss) :
    Laid I (ss.map .statement) := by
  induction h with
  | nil => exact .nil []
  | semicolon _ ih => exact ih.behind [_]
  | cons first _ ih => exact (Laid.single (.statement first)).append ih

/-- The children of a node, in the order in which they stand, side by side. -/
theorem NodePhrase.laid {I : Input σ} {n} (h : NodePhrase I n) :
    ∃ nodes, nodes.Perm n.children ∧ Laid I nodes := by
  cases h with
  | expression h =>
    obtain ⟨items, hperm, hpaved⟩ := h.paved
    exact ⟨items, hperm, hpaved.laid⟩
  | tables h =>
    cases h with
    | intro list _ => exact ⟨_, .refl _, (list.laid .table).behind [_]⟩
  | filter h =>
    cases h with
    | intro expression _ => exact ⟨_, .refl _, (Laid.single (.expression expression)).behind [_]⟩
  | order h =>
    cases h with
    | intro list _ => exact ⟨_, .refl _, (list.laid .column).behind [_, _]⟩
  | statement h | clauses h | operand h => exact ⟨_, .refl _, h.laid⟩
  | table | column | operator => exact ⟨_, .refl _, .nil _⟩

/-- Every node of a tree is a phrase, in the tokens that the tree was read from. -/
theorem NodePhrase.within {I : Input σ} {n m} (h : NodePhrase I n) (hm : n.Within m) :
    ∃ K, K <:+: I ∧ NodePhrase K m := by
  induction hm with
  | self => exact ⟨I, List.infix_refl I, h⟩
  | child _ hc ih =>
    obtain ⟨J, hJ, hphrase⟩ := ih
    obtain ⟨nodes, hperm, hlaid⟩ := hphrase.laid
    obtain ⟨K, hK, hphrase⟩ := hlaid.exists_infix (hperm.mem_iff.mpr hc)
    exact ⟨K, hK.trans hJ, hphrase⟩

theorem ScriptPhrase.within {I : Input σ} {ss} (h : ScriptPhrase I ss) {s n} (hs : s ∈ ss)
    (hn : (Node.statement s).Within n) : ∃ K, K <:+: I ∧ NodePhrase K n := by
  obtain ⟨J, hJ, hstatement⟩ := h.laid.exists_infix (List.mem_map_of_mem hs)
  obtain ⟨K, hK, hphrase⟩ := hstatement.within hn
  exact ⟨K, hK.trans hJ, hphrase⟩

end SqlScript.Grammar

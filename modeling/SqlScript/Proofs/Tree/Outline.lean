import SqlScript.Tree.Outline
import SqlScript.Proofs.Tree.Node

/-!
# What an outline shows

Every node of a tree has rows of its own: one for itself, then those of its children. So the rows
of a node stand together in the outline of whatever it is inside (`Node.Within.rows_infix`), and
the outline has the row of every node and no others (`Node.mem_rows`).
-/

namespace SqlScript

variable {α : Type}

namespace Node

/-- The part of an outline that is about a node and what is inside it. -/
def rows : Node α → List (Row α)
  | statement s => s.rows
  | clauses c => Clauses.rows c
  | tables c => ⟨"from_clause", c.span, none⟩ :: c.node.map tableRow
  | filter c => ⟨"where_clause", c.span, none⟩ :: c.node.rows
  | order c => ⟨"order_by", c.span, none⟩ :: c.node.map columnRow
  | table t => [tableRow t]
  | column c => [columnRow c]
  | expression e => e.rows
  | operand x => x.rows
  | operator o => [⟨"operator", o.span, o.node.symbol⟩]

/-! ## Rows of several nodes -/

/-- The recursion over a list of expressions is over their nodes. -/
theorem flatMap_expression (es : List (Expr α)) :
    (es.map expression).flatMap rows = Expr.listRows es := by
  induction es with
  | nil => rfl
  | cons e es ih => rw [List.map_cons, List.flatMap_cons, ih, Expr.listRows, rows]

/-- The recursion over a stack is over the nodes of its items. -/
theorem flatMap_ofItem (is : List (Item α)) :
    (is.map ofItem).flatMap rows = Item.listRows is := by
  induction is with
  | nil => rfl
  | cons i is ih =>
    rw [List.map_cons, List.flatMap_cons, ih, Item.listRows]
    cases i <;> rfl

/-- Nodes with a single row each. -/
theorem flatMap_single {β : Type} {node : β → Node α} {row : β → Row α}
    (h : ∀ x, (node x).rows = [row x]) (xs : List β) :
    (xs.map node).flatMap rows = xs.map row := by
  simp only [List.flatMap_map, h, ← List.map_eq_flatMap]

/-- A clause that may be absent. -/
theorem flatMap_toList {β : Type} {node : β → Node α} {f : β → List (Row α)}
    (h : ∀ x, (node x).rows = f x) (o : Option β) :
    (o.map node).toList.flatMap rows = (o.map f).getD [] := by
  cases o with
  | none => rfl
  | some x => rw [Option.map_some, Option.toList_some, List.flatMap_singleton, h]; rfl

/-! ## The row of a node -/

def label : Node α → String
  | statement (.use _ _) => "use"
  | statement (.select _ _ _) => "select"
  | statement (.insert _ _ _ _) => "insert"
  | statement (.delete _ _) => "delete"
  | clauses _ => "table_expr"
  | tables _ => "from_clause"
  | filter _ => "where_clause"
  | order _ => "order_by"
  | table _ => "table_ref"
  | column _ => "column"
  | expression _ => "expr"
  | operand (.not _ _) => "not"
  | operand (.call _ _ _) => "call"
  | operand (.atom _ value) => value.label
  | operator _ => "operator"

/-- Only expressions and what they consist of have a text. -/
def text : Node α → Option String
  | column c => c.node.text
  | expression e => e.text
  | operand x => x.text
  | operator o => o.node.symbol
  | statement _ | clauses _ | tables _ | filter _ | order _ | table _ => none

def row (n : Node α) : Row α := ⟨n.label, n.span, n.text⟩

/-- The row of a node stands before those of its children. A column that is an operand shares the
row of the operand. -/
theorem rows_eq (n : Node α) : n.rows = n.row :: n.children.flatMap rows ∨
    n.rows = [n.row] ∧ n.children.flatMap rows = [n.row] := by
  cases n with
  | statement s =>
    left
    cases s with
    | use => rfl
    | select span list kept =>
      rw [children, List.flatMap_append, flatMap_expression, flatMap_toList (fun _ => rfl)]
      cases kept <;> rfl
    | insert span into columns values =>
      rw [children, List.flatMap_cons, List.flatMap_append, flatMap_single (fun _ => rfl),
        flatMap_expression]
      rfl
    | delete span kept =>
      rw [children, List.flatMap_singleton]
      rfl
  | clauses c =>
    left
    rw [children, List.flatMap_append, List.flatMap_append, flatMap_toList (fun _ => rfl),
      flatMap_toList (fun _ => rfl), flatMap_toList (fun _ => rfl), ← List.append_assoc]
    rfl
  | tables c | order c =>
    left
    rw [children, flatMap_single (fun _ => rfl)]
    rfl
  | filter c =>
    left
    rw [children, List.flatMap_singleton]
    rfl
  | table | column | operator => exact .inl rfl
  | expression e =>
    obtain ⟨span, stack⟩ := e
    left
    rw [children, Expr.stack, flatMap_ofItem]
    rfl
  | operand x =>
    cases x with
    | not span value =>
      left
      rw [children, List.flatMap_singleton]
      rfl
    | call span function args =>
      left
      rw [children, flatMap_expression]
      rfl
    | atom span value =>
      cases value with
      | column ref => exact .inr ⟨rfl, rfl⟩
      | number | string | bool | null => exact .inl rfl

theorem row_mem_rows (n : Node α) : n.row ∈ n.rows := by
  obtain h | ⟨h, -⟩ := n.rows_eq <;> rw [h] <;> exact List.mem_cons_self

/-! ## The rows of an outline -/

theorem rows_infix_child {n c : Node α} (hc : c ∈ n.children) : c.rows <:+: n.rows := by
  have hmem : c.rows <:+: n.children.flatMap rows :=
    List.infix_of_mem_flatten (List.mem_map_of_mem hc)
  obtain h | ⟨h, hchildren⟩ := n.rows_eq
  · exact h ▸ List.infix_cons hmem
  · rwa [h, ← hchildren]

/-- What is inside a node has its rows in one piece among those of the node. -/
theorem Within.rows_infix {n m : Node α} (h : n.Within m) : m.rows <:+: n.rows := by
  induction h with
  | self => exact List.infix_rfl
  | child _ hc ih => exact (rows_infix_child hc).trans ih

/-- An outline has the row of every node, and no others. -/
theorem mem_rows {n : Node α} {r : Row α} : r ∈ n.rows ↔ ∃ m, n.Within m ∧ m.row = r := by
  constructor
  · intro hr
    -- By induction on the number of rows: a child has fewer, as the node's own is none of them.
    induction hlength : n.rows.length using Nat.strongRecOn generalizing n with
    | ind k ih =>
      obtain h | ⟨h, -⟩ := n.rows_eq
      · rw [h, List.mem_cons] at hr
        rcases hr with rfl | hr
        · exact ⟨n, .self, rfl⟩
        · obtain ⟨c, hc, hr⟩ := List.mem_flatMap.mp hr
          have hle : c.rows.length ≤ (n.children.flatMap rows).length :=
            (List.infix_of_mem_flatten (List.mem_map_of_mem hc)).length_le
          have hlt : c.rows.length < k := by
            rw [← hlength, h, List.length_cons]
            omega
          obtain ⟨m, hm, hrow⟩ := ih _ hlt hr rfl
          exact ⟨m, (Within.self.child hc).trans hm, hrow⟩
      · exact ⟨n, .self, (List.mem_singleton.mp (h ▸ hr)).symm⟩
  · rintro ⟨m, hm, rfl⟩
    exact hm.rows_infix.subset m.row_mem_rows

end Node

end SqlScript

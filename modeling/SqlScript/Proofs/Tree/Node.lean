import SqlScript.Proofs.Grammar.Need
import SqlScript.Proofs.Tree.Map

/-!
# The nodes of a tree

Everything in a script that has a span of its own, whatever it is, and what lies directly inside it.
-/

namespace SqlScript

variable {α β : Type}

inductive Node (α : Type)
  | statement (s : Statement α)
  | clauses (c : Spanned α (Clauses α))
  | tables (c : Spanned α (List (Spanned α TableRef)))
  | filter (c : Spanned α (Expr α))
  | order (c : Spanned α (List (Spanned α ColumnRef)))
  | table (t : Spanned α TableRef)
  | column (c : Spanned α ColumnRef)
  | expression (e : Expr α)
  | operand (x : Operand α)
  | operator (o : Spanned α Operator)

namespace Node

def span : Node α → α
  | statement s => s.span
  | clauses c => c.span
  | tables c => c.span
  | filter c => c.span
  | order c => c.span
  | table t => t.span
  | column c => c.span
  | expression e => e.span
  | operand x => x.span
  | operator o => o.span

def ofItem : Item α → Node α
  | .operand x => operand x
  | .operator o => operator o

/-- What lies directly inside a node: in the order of the tokens, but for the items of an
expression, which are in postfix order. A column that is an operand has the span of the operand. -/
def children : Node α → List (Node α)
  | statement (.use _ _) => []
  | statement (.select _ list kept) => list.map expression ++ (kept.map clauses).toList
  | statement (.insert _ into columns values) =>
    table into :: (columns.map column ++ values.map expression)
  | statement (.delete _ kept) => [clauses kept]
  | clauses ⟨_, c⟩ =>
    (c.tables.map tables).toList ++ ((c.filter.map filter).toList ++ (c.order.map order).toList)
  | tables c => c.node.map table
  | filter c => [expression c.node]
  | order c => c.node.map column
  | expression e => e.stack.map ofItem
  | operand (.not _ x) => [operand x]
  | operand (.call _ _ args) => args.map expression
  | operand (.atom span (.column ref)) => [column ⟨span, ref⟩]
  | operand (.atom _ _) => []
  | table _ | column _ | operator _ => []

/-- A node itself, its children, their children and so on. -/
inductive Within (n : Node α) : Node α → Prop
  | self : n.Within n
  | child {m c} (h : n.Within m) (hc : c ∈ m.children) : n.Within c

theorem Within.trans {n m c : Node α} (h : n.Within m) (h' : m.Within c) : n.Within c := by
  induction h' with
  | self => exact h
  | child _ hc ih => exact ih.child hc

/-! ## Other annotations -/

def map (f : α → β) : Node α → Node β
  | statement s => statement (s.map f)
  | clauses c => clauses (c.map f (.map f))
  | tables c => tables (c.map f (List.map (.map f id)))
  | filter c => filter (c.map f (.map f))
  | order c => order (c.map f (List.map (.map f id)))
  | table t => table (t.map f id)
  | column c => column (c.map f id)
  | expression e => expression (e.map f)
  | operand x => operand (x.map f)
  | operator o => operator (o.map f id)

@[simp] theorem span_map (f : α → β) (n : Node α) : (n.map f).span = f n.span := by
  cases n with
  | statement s => cases s <;> rfl
  | expression e => exact e.span_map f
  | operand x => exact x.span_map f
  | _ => rfl

theorem ofItem_map (f : α → β) (i : Item α) : ofItem (i.map f) = (ofItem i).map f := by
  cases i <;> rfl

theorem children_map (f : α → β) (n : Node α) : (n.map f).children = n.children.map (map f) := by
  cases n with
  | statement s =>
    cases s with
    | select span list kept => cases kept <;> simp [map, children, Statement.map]
    | insert => simp [map, children, Statement.map, Function.comp_def]
    | use | delete => rfl
  | clauses c =>
    obtain ⟨span, tables, filter, order⟩ := c
    cases tables <;> cases filter <;> cases order <;> rfl
  | expression e =>
    obtain ⟨span, stack⟩ := e
    simp [map, children, Expr.map, Expr.stack, ofItem_map]
  | operand x =>
    cases x with
    | not span value => rfl
    | call span f args => simp [map, children, Operand.map]
    | atom span value => cases value <;> rfl
  | tables c | filter c | order c => simp [map, children, Spanned.map]
  | table | column | operator => rfl

/-- Every node of a tree with other annotations is one of the tree. -/
theorem Within.of_map {f : α → β} {n : Node α} {m : Node β} (h : (n.map f).Within m) :
    ∃ x, n.Within x ∧ x.map f = m := by
  induction h with
  | self => exact ⟨n, .self, rfl⟩
  | child _ hc ih =>
    obtain ⟨x, hx, rfl⟩ := ih
    rw [children_map] at hc
    obtain ⟨y, hy, rfl⟩ := List.mem_map.mp hc
    exact ⟨y, hx.child hy, rfl⟩

/-- Nothing has a statement inside it, and nothing but a statement has clauses. -/
theorem of_child {n c : Node α} (hc : c ∈ n.children) :
    (∀ s, c ≠ .statement s) ∧ ∀ k, c = .clauses k → ∃ s, n = .statement s := by
  cases n with
  | statement s =>
    refine ⟨?_, fun _ _ => ⟨s, rfl⟩⟩
    rintro t rfl
    cases s <;> simp [children] at hc
  | expression e =>
    obtain ⟨item, -, rfl⟩ := List.mem_map.mp hc
    cases item <;> simp [ofItem]
  | operand x =>
    cases x with
    | atom span value => cases value <;> simp_all [children]
    | not | call => constructor <;> rintro _ rfl <;> simp [children] at hc
  | _ => constructor <;> rintro _ rfl <;> simp [children] at hc

theorem Within.clauses {s : Statement α} {c} (h : (Node.statement s).Within (.clauses c)) :
    .clauses c ∈ (Node.statement s).children := by
  cases h with
  | child hm hc =>
    obtain ⟨t, rfl⟩ := (of_child hc).2 c rfl
    cases hm with
    | self => exact hc
    | child _ hs => exact ((of_child hs).1 t rfl).elim

/-! ## Needs -/

def need : Node α → Nat
  | statement s => s.need
  | clauses c => c.node.need
  | filter c => c.node.need
  | expression e => e.need
  | operand x => x.need
  | tables _ | order _ | table _ | column _ | operator _ => 0

end Node

theorem Node.need_children {n c : Node α} {d : Nat} (h : n.need ≤ d) (hc : c ∈ n.children) :
    c.need ≤ d := by
  cases n with
  | statement s =>
    cases s with
    | use => simp [children] at hc
    | select span list kept =>
      obtain ⟨hlist, hkept⟩ := Nat.max_le.mp h
      rcases List.mem_append.mp hc with hc | hc
      · obtain ⟨e, he, rfl⟩ := List.mem_map.mp hc
        exact Expr.needAll_le.mp (Nat.max_le.mp hlist).2 e he
      · cases kept with
        | none => simp at hc
        | some kept =>
          obtain rfl : c = .clauses kept := by simpa using hc
          exact hkept
    | insert span into columns values =>
      simp only [children, List.mem_cons, List.mem_append, List.mem_map] at hc
      rcases hc with rfl | ⟨column, -, rfl⟩ | ⟨e, he, rfl⟩
      · exact Nat.zero_le d
      · exact Nat.zero_le d
      · exact Expr.needAll_le.mp h e he
    | delete span kept =>
      obtain rfl : c = .clauses kept := by simpa [children] using hc
      exact h
  | clauses kept =>
    obtain ⟨span, tables, filter, order⟩ := kept
    simp only [children, List.mem_append, Option.mem_toList, Option.map_eq_some_iff] at hc
    rcases hc with ⟨_, -, rfl⟩ | ⟨condition, rfl, rfl⟩ | ⟨_, -, rfl⟩
    · exact Nat.zero_le d
    · exact h
    · exact Nat.zero_le d
  | filter condition =>
    obtain rfl : c = .expression condition.node := by simpa [children] using hc
    exact h
  | expression e =>
    obtain ⟨span, stack⟩ := e
    obtain ⟨item, hitem, rfl⟩ := List.mem_map.mp hc
    have hneed := Item.needAll_le.mp h item hitem
    cases item with
    | operand x => exact hneed
    | operator o => exact Nat.zero_le d
  | operand x =>
    cases x with
    | not span x =>
      obtain rfl : c = .operand x := by simpa [children] using hc
      exact Nat.le_of_succ_le h
    | call span f args =>
      obtain ⟨e, he, rfl⟩ := List.mem_map.mp hc
      have hargs : Expr.needAll args ≤ d := by
        simp only [need, Operand.need] at h
        omega
      exact Expr.needAll_le.mp hargs e he
    | atom span value =>
      cases value with
      | column ref =>
        obtain rfl : c = .column ⟨span, ref⟩ := by simpa [children] using hc
        exact Nat.zero_le d
      | _ => simp [children] at hc
  | tables t =>
    obtain ⟨table, -, rfl⟩ := List.mem_map.mp hc
    exact Nat.zero_le d
  | order t =>
    obtain ⟨column, -, rfl⟩ := List.mem_map.mp hc
    exact Nat.zero_le d
  | _ => simp [children] at hc

theorem Node.Within.need_le {n m : Node α} {d : Nat} (hm : n.Within m) (h : n.need ≤ d) :
    m.need ≤ d := by
  induction hm with
  | self => exact h
  | child _ hc ih => exact need_children ih hc

end SqlScript

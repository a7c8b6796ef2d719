import SqlScript.Grammar.Statement

/-!
# Other annotations on the same tree

`map` changes what the nodes of a tree are annotated with, and nothing else.
-/

namespace SqlScript

variable {α β σ τ : Type}

/-- The same piece, with other marks at its ends. -/
def Span.map (f : σ → τ) (s : Span σ) : Span τ := ⟨f s.first, f s.last⟩

/-- One function for the annotation and one for what is annotated. -/
def Spanned.map {γ δ : Type} (f : α → β) (g : γ → δ) (x : Spanned α γ) : Spanned β δ :=
  ⟨f x.span, g x.node⟩

mutual

/-- Other annotations at every node. The tree under them is the same. -/
def Operand.map (f : α → β) : Operand α → Operand β
  | .not span value => .not (f span) (value.map f)
  | .call span function args => .call (f span) function (Expr.mapAll f args)
  | .atom span value => .atom (f span) value

def Expr.map (f : α → β) : Expr α → Expr β
  | .postfixed span stack => .postfixed (f span) (Item.mapAll f stack)

def Expr.mapAll (f : α → β) : List (Expr α) → List (Expr β)
  | [] => []
  | e :: es => e.map f :: Expr.mapAll f es

def Item.map (f : α → β) : Item α → Item β
  | .operand value => .operand (value.map f)
  | .operator value => .operator (value.map f id)

def Item.mapAll (f : α → β) : List (Item α) → List (Item β)
  | [] => []
  | i :: is => i.map f :: Item.mapAll f is

end

/-- The spans of the clauses and those inside them are all of the kind that is mapped. -/
def Clauses.map (f : α → β) (c : Clauses α) : Clauses β :=
  ⟨c.tables.map (.map f (List.map (.map f id))), c.filter.map (.map f (.map f)),
    c.order.map (.map f (List.map (.map f id)))⟩

/-- Other annotations for the statement and for all inside it. -/
def Statement.map (f : α → β) : Statement α → Statement β
  | use span database => use (f span) database
  | select span list clauses =>
    select (f span) (list.map (.map f)) (clauses.map (.map f (.map f)))
  | insert span into columns values =>
    insert (f span) (into.map f id) (columns.map (.map f id)) (values.map (.map f))
  | delete span clauses => delete (f span) (clauses.map f (.map f))

/-- The recursion over a list of expressions is the usual map. -/
@[simp] theorem Expr.mapAll_eq (f : α → β) (es : List (Expr α)) :
    Expr.mapAll f es = es.map (.map f) := by
  induction es with
  | nil => rfl
  | cons e es ih => rw [Expr.mapAll, ih, List.map_cons]

/-- The recursion over a stack is the usual map. -/
@[simp] theorem Item.mapAll_eq (f : α → β) (is : List (Item α)) :
    Item.mapAll f is = is.map (.map f) := by
  induction is with
  | nil => rfl
  | cons i is ih => rw [Item.mapAll, ih, List.map_cons]

/-! ## Spans -/

namespace Span

variable (f : σ → τ)

/-- From the beginning of one span to the end of another, wherever they are. -/
@[simp] theorem map_through (s t : Span σ) : (s.through t).map f = (s.map f).through (t.map f) :=
  rfl

end Span

/-- The span of an operand is the annotation of its root. -/
@[simp] theorem Operand.span_map (f : α → β) (x : Operand α) : (x.map f).span = f x.span := by
  cases x <;> rfl

@[simp] theorem Expr.span_map (f : α → β) (e : Expr α) : (e.map f).span = f e.span := by
  cases e
  rfl

namespace Clauses

variable (f : σ → τ) (c : Clauses (Span σ))

/-- The clauses that are there say which spans make up the one of all. -/
@[simp] theorem span?_map : (c.map (.map f)).span? = c.span?.map (.map f) := by
  obtain ⟨tables, filter, order⟩ := c
  cases tables <;> cases filter <;> cases order <;> rfl

/-- Whether clauses count has nothing to do with their spans. -/
@[simp] theorem kept?_map :
    (c.map (.map f)).kept? = c.kept?.map (.map (.map f) (.map (.map f))) := by
  obtain ⟨tables, filter, order⟩ := c
  cases tables <;> cases filter <;> cases order <;> rfl

/-- Whether an ORDER BY is dropped has nothing to do with spans either. -/
@[simp] theorem dropped?_map : (c.map (.map f)).dropped? = c.dropped?.map (.map f) := by
  obtain ⟨tables, filter, order⟩ := c
  cases tables <;> cases filter <;> cases order <;> rfl

end Clauses

namespace Grammar

/-- The span of a chain is made up from its first operand and its last. -/
@[simp] theorem chainSpan_map {γ δ : Type} (f : σ → τ) (g : γ → δ) (first : Operand (Span σ))
    (links : List (γ × Operand (Span σ))) :
    chainSpan (first.map (.map f)) (links.map (.map g (.map (.map f)))) =
      (chainSpan first links).map f := by
  simp only [chainSpan, List.getLast?_map]
  cases links.getLast? <;> simp

/-- The span of a list is made up from its first entry and its last. -/
theorem listSpan_map {γ δ : Type} {f : σ → τ} {g : γ → δ} (span : γ → Span σ) (span' : δ → Span τ)
    (h : ∀ x, span' (g x) = (span x).map f) (first : γ) (more : List γ) :
    listSpan span' (g first) (more.map g) = (listSpan span first more).map f := by
  simp only [listSpan, List.getLast?_map]
  cases more.getLast? <;> simp [h]

end Grammar

/-! ## Postfix order -/

namespace Yard

/-- A yard whose operands and operators have other annotations. -/
def map (f : α → β) (y : Yard α) : Yard β :=
  ⟨y.output.map (.map f), y.waiting.map (.map f id)⟩

/-- Which operators are moved is decided by precedence, and no annotation is looked at. -/
theorem shift_map (f : α → β) (y : Yard α) (link : Spanned α Operator × Operand α) :
    (y.map f).shift (link.map (.map f id) (.map f)) = (y.shift link).map f := by
  obtain ⟨operator, operand⟩ := link
  simp only [shift, map, Prod.map, List.takeWhile_map, List.dropWhile_map, mk.injEq]
  refine ⟨Array.ext' ?_, rfl⟩
  simp only [Array.toList_push, Array.toList_map, Array.toList_appendList, List.map_append,
    List.map_map, List.map_cons, List.map_nil, Item.map]
  rfl

theorem foldl_shift_map (f : α → β) (links : List (Spanned α Operator × Operand α)) (y : Yard α) :
    (links.map (Prod.map (.map f id) (.map f))).foldl shift (y.map f) =
      (links.foldl shift y).map f := by
  induction links generalizing y with
  | nil => rfl
  | cons link links ih => rw [List.map_cons, List.foldl_cons, shift_map, ih, List.foldl_cons]

/-- At the end all operators are moved, under any annotations. -/
theorem finish_map (f : α → β) (y : Yard α) : (y.map f).finish = y.finish.map (.map f) := by
  simp [finish, map, Item.map]

/-- Annotations play no part in the order. -/
theorem postfixed_map (f : α → β) (first : Operand α)
    (links : List (Spanned α Operator × Operand α)) :
    postfixed (first.map f) (links.map (Prod.map (.map f id) (.map f))) =
      (postfixed first links).map (.map f) := by
  have hstart : start (first.map f) = (start first).map f := by simp [start, map, Item.map]
  rw [postfixed, hstart, foldl_shift_map, finish_map, postfixed]

end Yard

end SqlScript

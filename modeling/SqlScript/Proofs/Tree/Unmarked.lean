import SqlScript.Proofs.Tree.Map
import SqlScript.Tree.Equality
import SqlScript.Tree.Json

/-!
# Annotations are neither written nor compared

A tree with other annotations has the same JSON, and is equal to whatever it was equal to.
-/

namespace SqlScript

variable {α β γ : Type}

/-! ## JSON -/

mutual

/-- By induction over the tree, together with expressions, items and their lists. -/
theorem Operand.toJson_map (f : α → β) (x : Operand α) : (x.map f).toJson = x.toJson := by
  match x with
  | .not _ value => rw [Operand.map, Operand.toJson, value.toJson_map f, Operand.toJson]
  | .call _ function args =>
    rw [Operand.map, Operand.toJson, Expr.listToJson_mapAll f args, Operand.toJson]
  | .atom _ _ => rfl

theorem Expr.toJson_map (f : α → β) (e : Expr α) : (e.map f).toJson = e.toJson := by
  match e with
  | .postfixed _ stack => rw [Expr.map, Expr.toJson, Item.listToJson_mapAll f stack, Expr.toJson]

theorem Expr.listToJson_mapAll (f : α → β) (es : List (Expr α)) :
    Expr.listToJson (Expr.mapAll f es) = Expr.listToJson es := by
  match es with
  | [] => rfl
  | e :: es =>
    rw [Expr.mapAll, Expr.listToJson, e.toJson_map f, Expr.listToJson_mapAll f es, Expr.listToJson]

theorem Item.toJson_map (f : α → β) (i : Item α) : (i.map f).toJson = i.toJson := by
  match i with
  | .operand value => rw [Item.map, Item.toJson, value.toJson_map f, Item.toJson]
  | .operator _ => rfl

theorem Item.listToJson_mapAll (f : α → β) (is : List (Item α)) :
    Item.listToJson (Item.mapAll f is) = Item.listToJson is := by
  match is with
  | [] => rfl
  | i :: is =>
    rw [Item.mapAll, Item.listToJson, i.toJson_map f, Item.listToJson_mapAll f is, Item.listToJson]

end

/-- The same for a list that is mapped as any list is. -/
theorem Expr.listToJson_map (f : α → β) (es : List (Expr α)) :
    Expr.listToJson (es.map (.map f)) = Expr.listToJson es := by
  rw [← Expr.mapAll_eq, Expr.listToJson_mapAll]

/-- Absent clauses stay absent under other annotations. -/
theorem Clauses.toJson_map (f : α → β) (c : Clauses α) : (c.map f).toJson = c.toJson := by
  obtain ⟨tables, filter, order⟩ := c
  cases tables <;> cases filter <;> cases order <;>
    simp [Clauses.map, Clauses.toJson, Spanned.map, Expr.toJson_map, Function.comp_def]

/-- A statement has the same JSON under all annotations. -/
theorem Statement.toJson_map (f : α → β) (s : Statement α) : (s.map f).toJson = s.toJson := by
  cases s with
  | use => rfl
  | select _ list clauses =>
    cases clauses <;>
      simp [Statement.map, Statement.toJson, Spanned.map, Expr.listToJson_map, Clauses.toJson_map]
  | insert =>
    simp [Statement.map, Statement.toJson, Spanned.map, Expr.listToJson_map, Function.comp_def]
  | delete => simp [Statement.map, Statement.toJson, Spanned.map, Clauses.toJson_map]

/-- What is printed says nothing about where the script stood. -/
theorem scriptJson_map (f : α → β) (ss : List (Statement α)) :
    scriptJson (ss.map (.map f)) = scriptJson ss := by
  simp [scriptJson, Function.comp_def, Statement.toJson_map]

/-! ## Equality -/

section Same

variable (f : α → β) (g : α → γ)

mutual

/-- Two copies of an operand under other annotations compare like the operand with itself. -/
theorem Operand.same_map (x : Operand α) : (x.map f).same (x.map g) = x.same x := by
  match x with
  | .not _ value => rw [Operand.map, Operand.map, Operand.same, value.same_map, Operand.same]
  | .call _ function args =>
    rw [Operand.map, Operand.map, Operand.same, Expr.sameAll_mapAll args, Operand.same]
  | .atom _ _ => rfl

theorem Expr.same_map (e : Expr α) : (e.map f).same (e.map g) = e.same e := by
  match e with
  | .postfixed _ stack =>
    rw [Expr.map, Expr.map, Expr.same, Item.sameAll_mapAll stack, Expr.same]

theorem Expr.sameAll_mapAll (es : List (Expr α)) :
    Expr.sameAll (Expr.mapAll f es) (Expr.mapAll g es) = Expr.sameAll es es := by
  match es with
  | [] => rfl
  | e :: es =>
    rw [Expr.mapAll, Expr.mapAll, Expr.sameAll, e.same_map, Expr.sameAll_mapAll es, Expr.sameAll]

theorem Item.same_map (i : Item α) : (i.map f).same (i.map g) = i.same i := by
  match i with
  | .operand value => rw [Item.map, Item.map, Item.same, value.same_map, Item.same]
  | .operator _ => rfl

theorem Item.sameAll_mapAll (is : List (Item α)) :
    Item.sameAll (Item.mapAll f is) (Item.mapAll g is) = Item.sameAll is is := by
  match is with
  | [] => rfl
  | i :: is =>
    rw [Item.mapAll, Item.mapAll, Item.sameAll, i.same_map, Item.sameAll_mapAll is, Item.sameAll]

end

/-- The same for a list that is mapped as any list is. -/
theorem Expr.sameAll_map (es : List (Expr α)) :
    Expr.sameAll (es.map (.map f)) (es.map (.map g)) = Expr.sameAll es es := by
  rw [← Expr.mapAll_eq, ← Expr.mapAll_eq, Expr.sameAll_mapAll]

/-- Entries that compare like one with itself make up lists that do. -/
theorem sameList_map {δ ε ζ : Type} {same : ε → ζ → Bool} {same' : δ → δ → Bool} {p : δ → ε}
    {q : δ → ζ} (h : ∀ x, same (p x) (q x) = same' x x) (xs : List δ) :
    sameList same (xs.map p) (xs.map q) = sameList same' xs xs := by
  induction xs with
  | nil => rfl
  | cons x xs ih => rw [List.map_cons, List.map_cons, sameList, h, ih, sameList]

/-- Likewise for what may be absent. -/
theorem sameOption_map {δ ε ζ : Type} {same : ε → ζ → Bool} {same' : δ → δ → Bool} {p : δ → ε}
    {q : δ → ζ} (h : ∀ x, same (p x) (q x) = same' x x) (x : Option δ) :
    sameOption same (x.map p) (x.map q) = sameOption same' x x := by
  cases x with
  | none => rfl
  | some x => exact h x

/-- What is annotated and has an equality of its own compares by that. -/
theorem nodes_same_map {δ : Type} [BEq δ] (xs : List (Spanned α δ)) :
    sameList (Spanned.same (· == ·)) (xs.map (.map f id)) (xs.map (.map g id)) =
      sameList (Spanned.same (· == ·)) xs xs := by
  refine sameList_map ?_ xs
  exact fun _ => rfl

/-- Clauses compare part by part, so each part can be looked at alone. -/
theorem Clauses.same_map (c : Clauses α) : (c.map f).same (c.map g) = c.same c := by
  rw [Clauses.same, Clauses.same]
  congr 1
  · congr 1
    · exact sameOption_map (fun l => nodes_same_map f g l.node) c.tables
    · exact sameOption_map (fun e => e.node.same_map f g) c.filter
  · exact sameOption_map (fun l => nodes_same_map f g l.node) c.order

/-- A statement may differ from itself (if a number in it does); its copies do so just as well. -/
theorem Statement.same_map (s : Statement α) : (s.map f).same (s.map g) = s.same s := by
  cases s with
  | use => rfl
  | select _ list clauses =>
    rw [Statement.map, Statement.map, Statement.same, Expr.sameAll_map, Statement.same]
    congr 1
    exact sameOption_map (fun c => c.node.same_map f g) clauses
  | insert _ into columns values =>
    rw [Statement.map, Statement.map, Statement.same, Expr.sameAll_map, Statement.same]
    congr 2
    exact nodes_same_map f g columns
  | delete _ clauses => exact clauses.node.same_map f g

end Same

end SqlScript

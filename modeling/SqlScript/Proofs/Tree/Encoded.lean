import SqlScript.Proofs.Json.Decodable
import SqlScript.Tree.Equality
import SqlScript.Tree.Json

/-!
# Equal trees and equal documents

Two trees without negative numbers are written as the same document if and only if they are equal:
the type of a node tells its kind, and a field that is left out tells that there is nothing in it
(`Statement.toJson_eq_iff`).
-/

namespace SqlScript

variable {α β : Type}

/-- Equality as numbers is equality but for what is not a number and for the sign of zero. -/
theorem Binary64.same_iff {x y : Binary64} (hx : x.isNaN = false ∧ x.isNegative = false)
    (hy : y.isNaN = false ∧ y.isNegative = false) : x.same y = true ↔ x = y := by
  constructor
  · intro h
    simp only [same, hx.1, hy.1, Bool.not_false, Bool.true_and, Bool.or_eq_true, beq_iff_eq,
      Bool.and_eq_true] at h
    rcases h with hbits | ⟨hzero, hzero'⟩
    · cases x
      cases y
      exact congrArg mk hbits
    -- of the two zeros only one is not negative
    · rw [eq_ofIndex hx.1 hx.2, eq_ofIndex hy.1 hy.2, hzero, hzero']
  · rintro rfl
    rw [same_self, hx.1]
    rfl

namespace Json

/-! ## Plain documents -/

@[simp] theorem plain_number {x : Binary64} :
    (number x).Plain ↔ x.isNaN = false ∧ x.isNegative = false :=
  ⟨fun | .number h => h, .number⟩

@[simp] theorem plain_string (text : String) : (string text).Plain := .string text

@[simp] theorem plain_array {items : List Json} :
    (array items).Plain ↔ ∀ item ∈ items, item.Plain :=
  ⟨fun | .array h => h, .array⟩

/-- The type of a node is a text and always plain. -/
@[simp] theorem plain_node {type : String} {fields : List (String × Json)} :
    (node type fields).Plain ↔ ∀ j ∈ fields.map Prod.snd, j.Plain := by
  rw [List.forall_mem_map]
  constructor
  · rintro ⟨⟩
    rename_i h
    exact (List.forall_mem_cons.mp h).2
  · exact fun h => .object (List.forall_mem_cons.mpr ⟨.string type, h⟩)

/-! ## Fields -/

/-- The type comes first, so it is no field among the others. -/
@[simp] theorem node_inj {type type' : String} {fields fields' : List (String × Json)} :
    node type fields = node type' fields' ↔ type = type' ∧ fields = fields' := by
  simp [node]

@[simp] theorem map_fst_fieldIfAny (key : String) (value : Option Json) :
    (fieldIfAny key value).map Prod.fst = (value.map fun _ => key).toList := by
  cases value <;> rfl

@[simp] theorem map_snd_fieldIfAny (key : String) (value : Option Json) :
    (fieldIfAny key value).map Prod.snd = value.toList := by
  cases value <;> rfl

/-- A field that is left out is told from one that is not by the field behind it. -/
theorem fieldIfAny_append_inj {key : String} {x y : Option Json} {r s : List (String × Json)}
    (hr : key ∉ r.map Prod.fst) (hs : key ∉ s.map Prod.fst) :
    fieldIfAny key x ++ r = fieldIfAny key y ++ s ↔ x = y ∧ r = s := by
  cases x with
  | none =>
    cases y with
    | none => simp [fieldIfAny]
    | some v =>
      simp only [reduceCtorEq, false_and, iff_false]
      rintro rfl
      exact hr List.mem_cons_self
  | some v =>
    cases y with
    | none =>
      simp only [reduceCtorEq, false_and, iff_false]
      rintro rfl
      exact hs List.mem_cons_self
    | some => simp [fieldIfAny]

/-- A field that is left out is one without a value. -/
theorem fieldIfAny_inj {key : String} {x y : Option Json} :
    fieldIfAny key x = fieldIfAny key y ↔ x = y := by
  simpa using @fieldIfAny_append_inj key x y [] [] (by simp) (by simp)

end Json

/-! ## Lists and options -/

/-- Entries that are equal as written if and only if they compare equal make up lists of this kind.
-/
theorem map_eq_map_iff_sameList {γ : Type} {f : α → γ} {g : β → γ} {same : α → β → Bool}
    {xs : List α} {ys : List β} (h : ∀ x ∈ xs, ∀ y ∈ ys, f x = g y ↔ same x y = true) :
    xs.map f = ys.map g ↔ sameList same xs ys = true := by
  induction xs generalizing ys with
  | nil => cases ys <;> simp [sameList]
  | cons x xs ih =>
    cases ys with
    | nil => simp [sameList]
    | cons y ys =>
      have hmore := ih fun x' hx y' hy =>
        h x' (List.mem_cons_of_mem x hx) y' (List.mem_cons_of_mem y hy)
      rw [List.map_cons, List.map_cons, List.cons.injEq,
        h x List.mem_cons_self y List.mem_cons_self, hmore, sameList, Bool.and_eq_true]

/-- Likewise for what may be absent. -/
theorem map_eq_map_iff_sameOption {γ : Type} {f : α → γ} {g : β → γ} {same : α → β → Bool}
    {x : Option α} {y : Option β} (h : ∀ v ∈ x, ∀ w ∈ y, f v = g w ↔ same v w = true) :
    x.map f = y.map g ↔ sameOption same x y = true := by
  cases x <;> cases y <;> simp_all [sameOption]

/-! ## Expressions -/

/-- A table without a database differs from one with a database, whatever their names are. -/
theorem TableRef.toJson_eq_iff {t u : TableRef} : t.toJson = u.toJson ↔ t = u := by
  obtain ⟨database, table⟩ := t
  obtain ⟨database', table'⟩ := u
  cases database <;> cases database' <;> simp [toJson, Json.fieldIfAny]

theorem ColumnRef.toJson_eq_iff {c d : ColumnRef} : c.toJson = d.toJson ↔ c = d := by
  obtain ⟨table, column⟩ := c
  obtain ⟨table', column'⟩ := d
  cases table <;> cases table' <;> simp [toJson, Json.fieldIfAny]

/-- References are made of texts. -/
theorem TableRef.plain (t : TableRef) : t.toJson.Plain := by
  cases h : t.database <;> simp [toJson, h]

theorem ColumnRef.plain (c : ColumnRef) : c.toJson.Plain := by
  cases h : c.table <;> simp [toJson, h]

/-- No two operators are written alike. -/
theorem Operator.symbol_inj {o p : Operator} : o.symbol = p.symbol ↔ o = p := by
  refine ⟨fun h => ?_, congrArg symbol⟩
  have hp := ofSymbol?_symbol p
  rw [← h, ofSymbol?_symbol] at hp
  exact Option.some.inj hp

theorem Operator.toJson_eq_iff {o p : Operator} : o.toJson = p.toJson ↔ o = p := by
  simp [toJson, symbol_inj]

/-- Columns, numbers and strings have types of their own, so no one is taken for another. -/
theorem Atom.toJson_eq_iff {a b : Atom} (ha : a.toJson.Plain) (hb : b.toJson.Plain) :
    a.toJson = b.toJson ↔ a.same b = true := by
  cases a with
  | number x =>
    cases b with
    | number y =>
      have hx : x.isNaN = false ∧ x.isNegative = false := by simpa [toJson] using ha
      have hy : y.isNaN = false ∧ y.isNegative = false := by simpa [toJson] using hb
      simp [toJson, same, Binary64.same_iff hx hy]
    | _ => simp [toJson, same, ColumnRef.toJson]
  | column c => cases b <;> simp [toJson, same, ColumnRef.toJson_eq_iff] <;> simp [ColumnRef.toJson]
  | _ => cases b <;> simp [toJson, same, ColumnRef.toJson]

/-- A value is no node of another type. -/
theorem Atom.toJson_ne_node {type : String} {fields : List (String × Json)}
    (h : type ∉ ["column", "number", "string", "bool", "null"]) (a : Atom) :
    a.toJson ≠ .node type fields := by
  simp only [List.mem_cons, List.not_mem_nil, or_false, not_or] at h
  cases a <;> simp only [toJson, ColumnRef.toJson, ne_eq, Json.node_inj, not_and] <;>
    exact fun heq => by simp_all

/-- On a stack, operands and operators are told apart by their types. -/
theorem Operand.toJson_ne_operator (x : Operand α) (fields : List (String × Json)) :
    x.toJson ≠ .node "operator" fields := by
  cases x with
  | atom _ a => exact a.toJson_ne_node (by decide)
  | not | call => simp [toJson]

mutual

/-- By induction over the tree, together with expressions, items and their lists. -/
theorem Operand.toJson_eq_iff (x : Operand α) (y : Operand β) (hx : x.toJson.Plain)
    (hy : y.toJson.Plain) : x.toJson = y.toJson ↔ x.same y = true := by
  match x, y with
  | .not _ x, .not _ y =>
    have hx : x.toJson.Plain := by simpa [Operand.toJson] using hx
    have hy : y.toJson.Plain := by simpa [Operand.toJson] using hy
    simp [Operand.toJson, Operand.same, x.toJson_eq_iff y hx hy]
  | .call _ _ xs, .call _ _ ys =>
    have hx : ∀ j ∈ Expr.listToJson xs, j.Plain := by simpa [Operand.toJson] using hx
    have hy : ∀ j ∈ Expr.listToJson ys, j.Plain := by simpa [Operand.toJson] using hy
    simp [Operand.toJson, Operand.same, Expr.listToJson_eq_iff xs ys hx hy]
  | .atom _ a, .atom _ b => exact Atom.toJson_eq_iff hx hy
  | .not _ _, .call _ _ _ | .call _ _ _, .not _ _ => simp [Operand.toJson, Operand.same]
  | .not _ _, .atom _ b | .call _ _ _, .atom _ b =>
    simp [Operand.toJson, Operand.same, (b.toJson_ne_node _).symm]
  | .atom _ a, .not _ _ | .atom _ a, .call _ _ _ =>
    simp [Operand.toJson, Operand.same, a.toJson_ne_node]

theorem Expr.toJson_eq_iff (x : Expr α) (y : Expr β) (hx : x.toJson.Plain)
    (hy : y.toJson.Plain) : x.toJson = y.toJson ↔ x.same y = true := by
  match x, y with
  | .postfixed _ xs, .postfixed _ ys =>
    have hx : ∀ j ∈ Item.listToJson xs, j.Plain := by simpa [Expr.toJson] using hx
    have hy : ∀ j ∈ Item.listToJson ys, j.Plain := by simpa [Expr.toJson] using hy
    simp [Expr.toJson, Expr.same, Item.listToJson_eq_iff xs ys hx hy]

theorem Expr.listToJson_eq_iff (xs : List (Expr α)) (ys : List (Expr β))
    (hx : ∀ j ∈ Expr.listToJson xs, j.Plain) (hy : ∀ j ∈ Expr.listToJson ys, j.Plain) :
    Expr.listToJson xs = Expr.listToJson ys ↔ Expr.sameAll xs ys = true := by
  match xs, ys with
  | [], [] | [], _ :: _ | _ :: _, [] => simp [Expr.listToJson, Expr.sameAll]
  | x :: xs, y :: ys =>
    obtain ⟨hx, hxs⟩ := List.forall_mem_cons.mp hx
    obtain ⟨hy, hys⟩ := List.forall_mem_cons.mp hy
    simp [Expr.listToJson, Expr.sameAll, x.toJson_eq_iff y hx hy,
      Expr.listToJson_eq_iff xs ys hxs hys]

theorem Item.toJson_eq_iff (x : Item α) (y : Item β) (hx : x.toJson.Plain)
    (hy : y.toJson.Plain) : x.toJson = y.toJson ↔ x.same y = true := by
  match x, y with
  | .operand x, .operand y => exact x.toJson_eq_iff y hx hy
  | .operator o, .operator p => simp [Item.toJson, Item.same, Operator.toJson_eq_iff]
  | .operand x, .operator p =>
    simp [Item.toJson, Item.same, Operator.toJson, x.toJson_ne_operator]
  | .operator o, .operand y =>
    simp [Item.toJson, Item.same, Operator.toJson, (y.toJson_ne_operator _).symm]

theorem Item.listToJson_eq_iff (xs : List (Item α)) (ys : List (Item β))
    (hx : ∀ j ∈ Item.listToJson xs, j.Plain) (hy : ∀ j ∈ Item.listToJson ys, j.Plain) :
    Item.listToJson xs = Item.listToJson ys ↔ Item.sameAll xs ys = true := by
  match xs, ys with
  | [], [] | [], _ :: _ | _ :: _, [] => simp [Item.listToJson, Item.sameAll]
  | x :: xs, y :: ys =>
    obtain ⟨hx, hxs⟩ := List.forall_mem_cons.mp hx
    obtain ⟨hy, hys⟩ := List.forall_mem_cons.mp hy
    simp [Item.listToJson, Item.sameAll, x.toJson_eq_iff y hx hy,
      Item.listToJson_eq_iff xs ys hxs hys]

end

/-! ## Statements -/

theorem tables_toJson_eq_iff (ts : List (Spanned α TableRef)) (us : List (Spanned β TableRef)) :
    ts.map (·.node.toJson) = us.map (·.node.toJson) ↔
      sameList (Spanned.same (· == ·)) ts us = true :=
  map_eq_map_iff_sameList fun t _ u _ => by simp [TableRef.toJson_eq_iff, Spanned.same]

theorem columns_toJson_eq_iff (cs : List (Spanned α ColumnRef)) (ds : List (Spanned β ColumnRef)) :
    cs.map (·.node.toJson) = ds.map (·.node.toJson) ↔
      sameList (Spanned.same (· == ·)) cs ds = true :=
  map_eq_map_iff_sameList fun c _ d _ => by simp [ColumnRef.toJson_eq_iff, Spanned.same]

/-- What is inside plain JSON is plain. -/
theorem Clauses.plain_filter {c : Clauses α} (h : c.toJson.Plain) :
    ∀ e ∈ c.filter, e.node.toJson.Plain := by
  rintro e he
  have hnode := Json.plain_node.mp h (.node "where_clause" [("expr", e.node.toJson)])
    (by simp [Option.mem_def.mp he])
  simpa using hnode

/-- A clause is a field, left out if it is absent. -/
theorem Clauses.toJson_eq_iff (c : Clauses α) (d : Clauses β) (hc : c.toJson.Plain)
    (hd : d.toJson.Plain) : c.toJson = d.toJson ↔ c.same d = true := by
  have htables := map_eq_map_iff_sameOption (x := c.tables) (y := d.tables)
    (f := fun l => Json.node "from_clause" [("list", .array (l.node.map (·.node.toJson)))])
    (g := fun l => Json.node "from_clause" [("list", .array (l.node.map (·.node.toJson)))])
    fun l _ l' _ => by simpa using tables_toJson_eq_iff l.node l'.node
  have horder := map_eq_map_iff_sameOption (x := c.order) (y := d.order)
    (f := fun l => Json.node "order_by" [("columns", .array (l.node.map (·.node.toJson)))])
    (g := fun l => Json.node "order_by" [("columns", .array (l.node.map (·.node.toJson)))])
    fun l _ l' _ => by simpa using columns_toJson_eq_iff l.node l'.node
  have hfilter := map_eq_map_iff_sameOption (x := c.filter) (y := d.filter)
    (f := fun e => Json.node "where_clause" [("expr", e.node.toJson)])
    (g := fun e => Json.node "where_clause" [("expr", e.node.toJson)])
    fun e he e' he' => by
      simpa using e.node.toJson_eq_iff e'.node (plain_filter hc e he) (plain_filter hd e' he')
  simp only [Clauses.toJson, Json.node_inj, true_and, List.append_assoc]
  rw [Json.fieldIfAny_append_inj, Json.fieldIfAny_append_inj, Json.fieldIfAny_inj, htables,
    hfilter, horder, Clauses.same, Bool.and_eq_true, Bool.and_eq_true]
  · exact and_assoc.symm
  -- the keys behind a field are other keys
  all_goals simp

/-- What a SELECT without expressions leaves out. -/
theorem selected_toJson_eq_iff {xs : List (Expr α)} {ys : List (Expr β)}
    (hx : ∀ j ∈ Expr.listToJson xs, j.Plain) (hy : ∀ j ∈ Expr.listToJson ys, j.Plain) :
    (if xs.isEmpty then none else some (Json.array (Expr.listToJson xs))) =
      (if ys.isEmpty then none else some (Json.array (Expr.listToJson ys))) ↔
        Expr.sameAll xs ys = true := by
  rw [← Expr.listToJson_eq_iff xs ys hx hy]
  cases xs <;> cases ys <;> simp [Expr.listToJson]

/-- Both parts of a SELECT are plain if it is. -/
theorem Statement.plain_select {span : α} {xs : List (Expr α)} {c : Option (Spanned α (Clauses α))}
    (h : (select span xs c).toJson.Plain) :
    (∀ j ∈ Expr.listToJson xs, j.Plain) ∧ ∀ k ∈ c, k.node.toJson.Plain := by
  simp only [toJson, Json.plain_node, List.map_append, Json.map_snd_fieldIfAny,
    List.forall_mem_append] at h
  constructor
  · cases xs with
    | nil => simp [Expr.listToJson]
    | cons x xs => simpa using h.1
  · rintro k rfl
    simpa using h.2

/-- Statements have types of their own, too. -/
theorem Statement.toJson_eq_iff (s : Statement α) (t : Statement β) (hs : s.toJson.Plain)
    (ht : t.toJson.Plain) : s.toJson = t.toJson ↔ s.same t = true := by
  cases s with
  | use _ database =>
    cases t with
    | use => simp [toJson, same]
    | _ => simp [toJson, same]
  | select _ xs c =>
    cases t with
    | select _ ys d =>
      obtain ⟨hxs, hc⟩ := plain_select hs
      obtain ⟨hys, hd⟩ := plain_select ht
      have hclauses := map_eq_map_iff_sameOption (x := c) (y := d)
        (f := fun k => k.node.toJson) (g := fun k => k.node.toJson)
        fun k hk k' hk' => k.node.toJson_eq_iff k'.node (hc k hk) (hd k' hk')
      simp only [toJson, Json.node_inj, true_and]
      rw [Json.fieldIfAny_append_inj, Json.fieldIfAny_inj, selected_toJson_eq_iff hxs hys,
        hclauses, same, Bool.and_eq_true]
      · rfl
      all_goals simp
    | _ => simp [toJson, same]
  | insert _ table columns xs =>
    cases t with
    | insert _ table' columns' ys =>
      have hxs : ∀ j ∈ Expr.listToJson xs, j.Plain := by
        simpa using Json.plain_node.mp hs (.array (Expr.listToJson xs)) (by simp)
      have hys : ∀ j ∈ Expr.listToJson ys, j.Plain := by
        simpa using Json.plain_node.mp ht (.array (Expr.listToJson ys)) (by simp)
      simp [toJson, same, TableRef.toJson_eq_iff, columns_toJson_eq_iff,
        Expr.listToJson_eq_iff xs ys hxs hys, and_assoc]
    | _ => simp [toJson, same]
  | delete _ c =>
    cases t with
    | delete _ d =>
      have hs : c.node.toJson.Plain := by simpa [toJson] using hs
      have ht : d.node.toJson.Plain := by simpa [toJson] using ht
      simp [toJson, same, c.node.toJson_eq_iff d.node hs ht]
    | _ => simp [toJson, same]

/-- Two scripts have the same text if and only if they are equal. -/
theorem scriptJson_eq_iff {ss : List (Statement α)} {ts : List (Statement β)}
    (hss : ∀ s ∈ ss, s.toJson.Plain) (hts : ∀ t ∈ ts, t.toJson.Plain) :
    scriptJson ss = scriptJson ts ↔ sameList Statement.same ss ts = true := by
  rw [← map_eq_map_iff_sameList fun s hs t ht => s.toJson_eq_iff t (hss s hs) (hts t ht)]
  constructor
  · intro h
    have hdocument := Json.pretty_inj (Json.plain_array.mpr (List.forall_mem_map.mpr hss))
      (Json.plain_array.mpr (List.forall_mem_map.mpr hts)) h
    simpa using hdocument
  · intro h
    rw [scriptJson, scriptJson, h]

end SqlScript

import SqlScript.Proofs.Grammar.Proper
import SqlScript.Proofs.Scan.Displayed
import SqlScript.Proofs.Tree.Encoded

/-!
# Postfix text can be decoded

The text of an entry is a lexeme and what follows it in the entry. The lexeme tells what kind of
entry it is, but for calls and columns, which are told apart by what follows. So whatever text
begins with an expression begins with no other one (`Expr.text_append_inj`), as long as names are
bare and what follows cannot belong to it.
-/

namespace SqlScript

variable {α β : Type}

/-! ## Trees that can be displayed -/

namespace Node

/-- The names that a node itself displays are bare. -/
def Bare : Node α → Prop
  | operand (.call _ function _) => SqlScript.Bare function
  | column c => (∀ table ∈ c.node.table, SqlScript.Bare table) ∧ SqlScript.Bare c.node.column
  | _ => True

/-- All nodes of a tree are proper, and their names are bare. -/
def Displayable (n : Node α) : Prop := ∀ m, n.Within m → m.Proper ∧ m.Bare

/-- What is displayable is so in all its parts. -/
theorem Displayable.child {n c : Node α} (h : n.Displayable) (hc : c ∈ n.children) :
    c.Displayable :=
  fun m hm => h m ((Within.self.child hc).trans hm)

end Node

/-! ## Entries begin with a lexeme -/

namespace ColumnRef

def lead (c : ColumnRef) : String := c.table.getD c.column

def follow (c : ColumnRef) : List Char := c.table.elim [] fun _ => '.' :: c.column.toList

end ColumnRef

namespace Atom

def lead : Atom → Kind
  | column c => .name c.lead
  | number x => .number x
  | string v => .string v
  | bool b => .keyword (if b then "TRUE" else "FALSE")
  | null => .keyword "NULL"

def follow : Atom → List Char
  | column c => c.follow
  | number _ | string _ | bool _ | null => []

end Atom

/-- The arguments of a call behind the first one, each behind a comma. -/
def argumentsText (es : List (Expr α)) : List Char :=
  es.flatMap fun e => ',' :: ' ' :: e.text.toList

/-- The entries of an expression behind the first one, each behind a blank. -/
def entriesText (is : List (Item α)) : List Char :=
  is.flatMap fun i => ' ' :: i.text.toList

def callText : List (Expr α) → List Char
  | [] => [')']
  | e :: es => e.text.toList ++ (argumentsText es ++ [')'])

namespace Operand

def lead : Operand α → Kind
  | .not _ _ => .keyword "NOT"
  | .call _ function _ => .name function
  | .atom _ a => a.lead

def follow : Operand α → List Char
  | .not _ x => ' ' :: x.text.toList
  | .call _ _ args => '(' :: callText args
  | .atom _ a => a.follow

end Operand

namespace Item

def lead : Item α → Kind
  | .operand x => x.lead
  | .operator o => o.node.kind

def follow : Item α → List Char
  | .operand x => x.follow
  | .operator _ => []

end Item

theorem toList_intercalate_cons (sep : String) (t : String) (ts : List String) :
    (sep.intercalate (t :: ts)).toList =
      t.toList ++ ts.flatMap fun t => sep.toList ++ t.toList := by
  induction ts generalizing t with
  | nil => simp
  | cons u ts ih => simp_all [String.toList_intercalate, List.intercalate]

theorem Expr.texts_eq_map (es : List (Expr α)) : Expr.texts es = es.map Expr.text := by
  induction es with
  | nil => rfl
  | cons e es ih => rw [texts, ih, List.map_cons]

theorem Item.texts_eq_map (is : List (Item α)) : Item.texts is = is.map Item.text := by
  induction is with
  | nil => rfl
  | cons i is ih => rw [texts, ih, List.map_cons]

/-- The text of an expression is that of its first item and its other entries. -/
theorem Expr.toList_text {span : α} {i : Item α} {is : List (Item α)} :
    (Expr.postfixed span (i :: is)).text.toList = i.text.toList ++ entriesText is := by
  rw [text, Item.texts_eq_map, List.map_cons, toList_intercalate_cons, List.flatMap_map]
  rfl

/-- Each text is cut into its first token and what follows. -/
theorem Atom.toList_text (a : Atom) : a.text.toList = a.lead.shown ++ a.follow := by
  cases a with
  | column c =>
    obtain ⟨_ | table, name⟩ := c <;>
      simp [text, ColumnRef.text, lead, follow, ColumnRef.lead, ColumnRef.follow, Kind.shown]
  | bool b => cases b <;> rfl
  | _ => simp [text, lead, follow, Kind.shown]

theorem Operand.toList_text (x : Operand α) : x.text.toList = x.lead.shown ++ x.follow := by
  cases x with
  | not span x => simp [text, lead, follow, Kind.shown]
  | call span function args =>
    cases args with
    | nil => simp [text, lead, follow, Kind.shown, Expr.texts_eq_map, callText]
    | cons e es =>
      have hargs : (", ".intercalate (Expr.texts (e :: es))).toList =
          e.text.toList ++ argumentsText es := by
        rw [Expr.texts_eq_map, List.map_cons, toList_intercalate_cons, List.flatMap_map]
        rfl
      simp [text, lead, follow, Kind.shown, callText, hargs]
  | atom span a => exact a.toList_text

theorem Item.toList_text (i : Item α) : i.text.toList = i.lead.shown ++ i.follow := by
  cases i with
  | operand x => exact x.toList_text
  | operator o =>
    rw [text, lead, follow, Operator.kind, List.append_nil]
    split <;> rfl

/-! ## In front of what closes -/

section Shown

variable {r s : List Char}

theorem ColumnRef.shown {span : α} {c : ColumnRef} (h : (Node.column ⟨span, c⟩).Bare)
    (hr : Closes r) : Shown (.name c.lead) (c.follow ++ r) := by
  obtain ⟨htable, hname⟩ := h
  obtain ⟨_ | table, name⟩ := c
  · exact .of_bare hname (hr.ends (by decide))
  · exact .of_bare (htable table rfl) (ends_cons.mpr (by decide))

theorem Node.Displayable.column {span : α} {c : ColumnRef}
    (h : (Node.operand (.atom span (.column c))).Displayable) : (Node.column ⟨span, c⟩).Bare :=
  (h _ (.child .self (by simp [children]))).2

theorem Atom.shown {span : α} {a : Atom} (h : (Node.operand (.atom span a)).Displayable)
    (hr : Closes r) : Shown a.lead (a.follow ++ r) := by
  have hproper := (h _ .self).1
  cases a with
  | column c => exact ColumnRef.shown h.column hr
  | number x => exact .of_number hproper hr
  | string v => exact .of_string v hr
  | bool => exact hproper.elim
  | null => exact .of_reserved (by decide) (hr.ends (by decide))

theorem Operand.shown {x : Operand α} (h : (Node.operand x).Displayable) (hr : Closes r) :
    Shown x.lead (x.follow ++ r) := by
  cases x with
  | not => exact .of_reserved (by decide) (ends_cons.mpr (by decide))
  | call span function args =>
    have hfunction : Bare function := (h _ .self).2
    exact .of_bare hfunction (ends_cons.mpr (by decide))
  | atom => exact Atom.shown h hr

theorem Item.shown {i : Item α} (h : (Node.ofItem i).Displayable) (hr : Closes r) :
    Shown i.lead (i.follow ++ r) := by
  cases i with
  | operand => exact Operand.shown h hr
  | operator o => exact .of_operator o.node hr

theorem Closes.ne_cons (h : Closes r) {c : Char} {more : List Char} (hc : c ∉ [' ', ',', ')']) :
    r ≠ c :: more := by
  rintro rfl
  have := ends_cons.mp h
  simp_all

theorem ColumnRef.lead_follow_iff {span : α} {span' : β} {c d : ColumnRef}
    (hc : (Node.column ⟨span, c⟩).Bare) (hd : (Node.column ⟨span', d⟩).Bare) (hr : Closes r)
    (hs : Closes s) : c.lead = d.lead ∧ c.follow ++ r = d.follow ++ s ↔ c = d ∧ r = s := by
  have hname := (Shown.of_bare hc.2 (hr.ends (by decide))).append_inj
    (Shown.of_bare hd.2 (hs.ends (by decide)))
  obtain ⟨_ | table, name⟩ := c
  · obtain ⟨_ | table', name'⟩ := d
    · simp [lead, follow]
    · simp [lead, follow, hr.ne_cons]
  · obtain ⟨_ | table', name'⟩ := d
    · simp [lead, follow, (hs.ne_cons _).symm]
    · simp only [Kind.shown, Kind.name.injEq] at hname
      simp [lead, follow, hname, and_assoc]

theorem Atom.lead_follow_iff {span : α} {span' : β} {a b : Atom}
    (ha : (Node.operand (.atom span a)).Displayable)
    (hb : (Node.operand (.atom span' b)).Displayable) (hr : Closes r) (hs : Closes s) :
    a.lead = b.lead ∧ a.follow ++ r = b.follow ++ s ↔ a.same b = true ∧ r = s := by
  have hproper := (ha _ .self).1
  have hproper' := (hb _ .self).1
  cases a with
  | column c =>
    cases b with
    | column d =>
      simpa [lead, follow, same] using ColumnRef.lead_follow_iff ha.column hb.column hr hs
    | _ => simp [lead, follow, same]
  | number x =>
    cases b with
    | number y => simp [lead, follow, same, Binary64.same_iff hproper hproper']
    | _ => simp [lead, follow, same]
  | string v => cases b <;> simp [lead, follow, same]
  | bool => exact hproper.elim
  | null =>
    cases b with
    | bool => exact hproper'.elim
    | _ => simp [lead, follow, same]

/-! ## Decoding -/

/-- What may stand behind an expression: a comma, a closing parenthesis or nothing. -/
def Ended (rest : List Char) : Prop := Ends (· ∉ [',', ')']) rest

theorem Ended.closes (h : Ended r) : Closes r := by
  intro c hc
  have := h c hc
  simp_all

theorem Ended.ne_blank (h : Ended r) {more : List Char} : r ≠ ' ' :: more := by
  rintro rfl
  exact absurd (ends_cons.mp h) (by decide)

theorem closes_entriesText (is : List (Item α)) (h : Ended r) : Closes (entriesText is ++ r) := by
  cases is with
  | nil => exact h.closes
  | cons => exact ends_cons.mpr (by decide)

theorem ended_argumentsText (es : List (Expr α)) (r : List Char) :
    Ended (argumentsText es ++ ')' :: r) := by
  cases es <;> exact ends_cons.mpr (by decide)

theorem Operand.text_append_iff {x : Operand α} {y : Operand β}
    (hx : (Node.operand x).Displayable) (hy : (Node.operand y).Displayable) (hr : Closes r)
    (hs : Closes s) :
    x.text.toList ++ r = y.text.toList ++ s ↔
      x.lead = y.lead ∧ x.follow ++ r = y.follow ++ s := by
  rw [x.toList_text, y.toList_text, List.append_assoc, List.append_assoc,
    (Operand.shown hx hr).append_inj (Operand.shown hy hs)]

theorem Item.text_append_iff {i : Item α} {j : Item β} (hi : (Node.ofItem i).Displayable)
    (hj : (Node.ofItem j).Displayable) (hr : Closes r) (hs : Closes s) :
    i.text.toList ++ r = j.text.toList ++ s ↔
      i.lead = j.lead ∧ i.follow ++ r = j.follow ++ s := by
  rw [i.toList_text, j.toList_text, List.append_assoc, List.append_assoc,
    (Item.shown hi hr).append_inj (Item.shown hj hs)]

theorem Operator.ofKind?_kind (o : Operator) : ofKind? o.kind = some o := by
  rw [kind]
  split <;> exact ofSymbol?_symbol o

/-- Each operator is a token of its own. -/
theorem Operator.kind_inj {o p : Operator} : o.kind = p.kind ↔ o = p := by
  refine ⟨fun h => ?_, congrArg kind⟩
  have hp := p.ofKind?_kind
  rw [← h, ofKind?_kind] at hp
  exact Option.some.inj hp

/-- No value is written like NOT. -/
theorem Atom.lead_ne_not (a : Atom) : a.lead ≠ .keyword "NOT" := by
  cases a with
  | bool b => cases b <;> decide
  | null => decide
  | column | number | string => exact nofun

/-- Behind the name of a call there is a parenthesis. -/
theorem Atom.follow_ne_call {a : Atom} {function : String} (h : a.lead = .name function)
    (hs : Closes s) {more : List Char} : a.follow ++ s ≠ '(' :: more := by
  cases a with
  | column c =>
    obtain ⟨_ | table, name⟩ := c
    · simpa [follow, ColumnRef.follow] using hs.ne_cons (by decide)
    · simp [follow, ColumnRef.follow]
  | _ => cases h

/-- Operands do not begin with operators. -/
theorem Operand.ofKind?_lead (x : Operand α) : Operator.ofKind? x.lead = none := by
  have hword : ∀ word ∈ ["NOT", "NULL", "TRUE", "FALSE"],
      Operator.ofKind? (.keyword word) = none := by
    decide
  cases x with
  | not => exact hword "NOT" (by decide)
  | call => rfl
  | atom span a =>
    cases a with
    | bool b => cases b <;> exact hword _ (by decide)
    | null => exact hword "NULL" (by decide)
    | column | number | string => rfl

/-- An operand does not begin like an operator. -/
theorem Operand.lead_ne_kind (x : Operand α) (o : Operator) : x.lead ≠ o.kind := by
  intro h
  have hnone := x.ofKind?_lead
  rw [h, o.ofKind?_kind] at hnone
  cases hnone

/-- Nor does an item begin like the end of a call. -/
theorem Item.lead_ne_closing (i : Item α) : i.lead ≠ .symbol ")" := by
  cases i with
  | operand x =>
    cases x with
    | atom span a => cases a <;> exact nofun
    | not | call => exact nofun
  | operator o =>
    intro (h : o.node.kind = _)
    have hsome := o.node.ofKind?_kind
    have hnone : Operator.ofKind? (.symbol ")") = none := by decide
    rw [h, hnone] at hsome
    cases hsome

/-- An expression has entries. -/
theorem Expr.exists_entries {e : Expr α} (h : (Node.expression e).Displayable) :
    ∃ span i is, e = .postfixed span (i :: is) ∧
      ∀ m ∈ i :: is, (Node.ofItem m).Displayable := by
  obtain ⟨span, stack⟩ := e
  obtain ⟨⟨t, -, ht⟩, -⟩ := h _ .self
  have hentries : ∀ m ∈ stack, (Node.ofItem m).Displayable := fun m hm =>
    h.child (List.mem_map_of_mem hm)
  cases stack with
  | nil =>
    have hperm := t.postorder_perm
    rw [show t.postorder = [] from ht] at hperm
    exact absurd hperm.symm.eq_nil t.inorder_ne_nil
  | cons i is => exact ⟨span, i, is, rfl, hentries⟩

/-- No argument begins with the parenthesis behind the arguments. -/
theorem Expr.text_ne_closing {e : Expr α} (h : (Node.expression e).Displayable) (hr : Ended r) :
    e.text.toList ++ r ≠ ')' :: s := by
  obtain ⟨span, i, is, rfl, hentries⟩ := e.exists_entries h
  intro heq
  rw [toList_text, i.toList_text, List.append_assoc, List.append_assoc] at heq
  have hshown := Item.shown (hentries i List.mem_cons_self) (closes_entriesText is hr)
  exact i.lead_ne_closing ((hshown.append_inj Shown.of_closing).mp heq).1

mutual

/-- By induction over the trees. What stands behind them is part of the statement, as calls need it.
-/
theorem Operand.lead_follow_iff (x : Operand α) (y : Operand β)
    (hx : (Node.operand x).Displayable) (hy : (Node.operand y).Displayable) {r s : List Char}
    (hr : Closes r) (hs : Closes s) :
    x.lead = y.lead ∧ x.follow ++ r = y.follow ++ s ↔ x.same y = true ∧ r = s := by
  match x, y with
  | .not _ x, .not _ y =>
    have hx : (Node.operand x).Displayable := hx.child (by simp [Node.children])
    have hy : (Node.operand y).Displayable := hy.child (by simp [Node.children])
    have hinj := (Operand.text_append_iff hx hy hr hs).trans (x.lead_follow_iff y hx hy hr hs)
    simp [Operand.lead, Operand.follow, Operand.same, hinj]
  | .call _ f xs, .call _ g ys =>
    have hx : ∀ e ∈ xs, (Node.expression e).Displayable := fun e he =>
      hx.child (by simpa [Node.children] using he)
    have hy : ∀ e ∈ ys, (Node.expression e).Displayable := fun e he =>
      hy.child (by simpa [Node.children] using he)
    simp [Operand.lead, Operand.follow, Operand.same, callText_append_inj xs ys hx hy, and_assoc]
  | .atom _ a, .atom _ b => exact Atom.lead_follow_iff hx hy hr hs
  | .not _ _, .call _ _ _ | .call _ _ _, .not _ _ => simp [Operand.lead, Operand.same]
  | .not _ _, .atom _ b => simp [Operand.lead, Operand.same, b.lead_ne_not.symm]
  | .atom _ a, .not _ _ => simp [Operand.lead, Operand.same, a.lead_ne_not]
  | .call _ f _, .atom _ b =>
    simp only [Operand.lead, Operand.follow, Operand.same, Bool.false_eq_true, false_and, iff_false,
      not_and]
    exact fun h heq => Atom.follow_ne_call h.symm hs heq.symm
  | .atom _ a, .call _ g _ =>
    simp only [Operand.lead, Operand.follow, Operand.same, Bool.false_eq_true, false_and, iff_false,
      not_and]
    exact fun h => Atom.follow_ne_call h hr

theorem callText_append_inj (xs : List (Expr α)) (ys : List (Expr β))
    (hx : ∀ e ∈ xs, (Node.expression e).Displayable)
    (hy : ∀ e ∈ ys, (Node.expression e).Displayable) {r s : List Char} :
    callText xs ++ r = callText ys ++ s ↔ Expr.sameAll xs ys = true ∧ r = s := by
  match xs, ys with
  | [], [] => simp [callText, Expr.sameAll]
  | [], y :: ys =>
    have hne := Expr.text_ne_closing (hy y List.mem_cons_self) (ended_argumentsText ys s) (s := r)
    simpa [callText, Expr.sameAll] using hne.symm
  | x :: xs, [] =>
    have hne := Expr.text_ne_closing (hx x List.mem_cons_self) (ended_argumentsText xs r) (s := s)
    simpa [callText, Expr.sameAll] using hne
  | x :: xs, y :: ys =>
    obtain ⟨hx, hxs⟩ := List.forall_mem_cons.mp hx
    obtain ⟨hy, hys⟩ := List.forall_mem_cons.mp hy
    have hinj := x.text_append_inj y hx hy (ended_argumentsText xs r) (ended_argumentsText ys s)
    rw [argumentsText_append_inj xs ys hxs hys] at hinj
    simpa [callText, Expr.sameAll, and_assoc] using hinj

theorem Expr.text_append_inj (x : Expr α) (y : Expr β) (hx : (Node.expression x).Displayable)
    (hy : (Node.expression y).Displayable) {r s : List Char} (hr : Ended r) (hs : Ended s) :
    x.text.toList ++ r = y.text.toList ++ s ↔ x.same y = true ∧ r = s := by
  match x, y with
  | .postfixed _ [], _ => simpa using Expr.exists_entries hx
  | _, .postfixed _ [] => simpa using Expr.exists_entries hy
  | .postfixed _ (i :: is), .postfixed _ (j :: js) =>
    have hx : ∀ m ∈ i :: is, (Node.ofItem m).Displayable := fun m hm =>
      hx.child (List.mem_map_of_mem hm)
    have hy : ∀ m ∈ j :: js, (Node.ofItem m).Displayable := fun m hm =>
      hy.child (List.mem_map_of_mem hm)
    obtain ⟨hi, his⟩ := List.forall_mem_cons.mp hx
    obtain ⟨hj, hjs⟩ := List.forall_mem_cons.mp hy
    rw [Expr.toList_text, Expr.toList_text, List.append_assoc, List.append_assoc,
      i.text_append_inj j hi hj (closes_entriesText is hr) (closes_entriesText js hs),
      entriesText_append_inj is js his hjs hr hs, Expr.same, Item.sameAll, Bool.and_eq_true,
      and_assoc]

theorem argumentsText_append_inj (xs : List (Expr α)) (ys : List (Expr β))
    (hx : ∀ e ∈ xs, (Node.expression e).Displayable)
    (hy : ∀ e ∈ ys, (Node.expression e).Displayable) {r s : List Char} :
    argumentsText xs ++ ')' :: r = argumentsText ys ++ ')' :: s ↔
      Expr.sameAll xs ys = true ∧ r = s := by
  match xs, ys with
  | [], [] | [], _ :: _ | _ :: _, [] => simp [argumentsText, Expr.sameAll]
  | x :: xs, y :: ys =>
    obtain ⟨hx, hxs⟩ := List.forall_mem_cons.mp hx
    obtain ⟨hy, hys⟩ := List.forall_mem_cons.mp hy
    have hinj := x.text_append_inj y hx hy (ended_argumentsText xs r) (ended_argumentsText ys s)
    rw [argumentsText_append_inj xs ys hxs hys] at hinj
    simpa [argumentsText, Expr.sameAll, and_assoc] using hinj

theorem Item.text_append_inj (i : Item α) (j : Item β) (hi : (Node.ofItem i).Displayable)
    (hj : (Node.ofItem j).Displayable) {r s : List Char} (hr : Closes r) (hs : Closes s) :
    i.text.toList ++ r = j.text.toList ++ s ↔ i.same j = true ∧ r = s := by
  rw [Item.text_append_iff hi hj hr hs]
  match i, j with
  | .operand x, .operand y => exact x.lead_follow_iff y hi hj hr hs
  | .operator o, .operator p => simp [Item.lead, Item.follow, Item.same, Operator.kind_inj]
  | .operand x, .operator p => simp [Item.lead, Item.same, x.lead_ne_kind]
  | .operator o, .operand y => simp [Item.lead, Item.same, (y.lead_ne_kind _).symm]

theorem entriesText_append_inj (is : List (Item α)) (js : List (Item β))
    (hi : ∀ i ∈ is, (Node.ofItem i).Displayable) (hj : ∀ j ∈ js, (Node.ofItem j).Displayable)
    {r s : List Char} (hr : Ended r) (hs : Ended s) :
    entriesText is ++ r = entriesText js ++ s ↔ Item.sameAll is js = true ∧ r = s := by
  match is, js with
  | [], [] => simp [entriesText, Item.sameAll]
  | [], _ :: _ => simp [entriesText, Item.sameAll, hr.ne_blank]
  | _ :: _, [] => simp [entriesText, Item.sameAll, hs.ne_blank.symm]
  | i :: is, j :: js =>
    obtain ⟨hi, his⟩ := List.forall_mem_cons.mp hi
    obtain ⟨hj, hjs⟩ := List.forall_mem_cons.mp hj
    have hinj := i.text_append_inj j hi hj (closes_entriesText is hr) (closes_entriesText js hs)
    rw [entriesText_append_inj is js his hjs hr hs] at hinj
    simpa [entriesText, Item.sameAll, and_assoc] using hinj

end

end Shown

end SqlScript

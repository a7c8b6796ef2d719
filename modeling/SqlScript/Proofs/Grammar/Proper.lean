import SqlScript.Proofs.Grammar.Nodes
import SqlScript.Proofs.Scan.Written

/-!
# Trees that can be written

What holds of every node of a tree whose tokens come from text (`ScriptPhrase.sound`) is enough as
well: trees all of whose nodes are such are a script, in tokens that can be written
(`spellable_script`).
-/

namespace SqlScript

open Grammar

variable {α σ : Type}

/-! ## Proper nodes -/

/-- A text that can stand between double quotes. -/
def Quotable (text : String) : Prop := '"' ∉ text.toList

namespace Node

/-- What a node of a tree that comes from text is like, whatever is inside it. -/
def Proper : Node α → Prop
  | statement (.use _ database) => Quotable database
  | statement (.select _ list kept) => kept.isSome → list ≠ []
  | statement (.insert _ _ columns values) => columns ≠ [] ∧ values ≠ []
  | clauses c => Selective c.node
  | tables c => c.node ≠ []
  | order c => c.node ≠ []
  | table t => (∀ database ∈ t.node.database, Quotable database) ∧ Quotable t.node.table
  | column c => (∀ table ∈ c.node.table, Quotable table) ∧ Quotable c.node.column
  | expression e => ∃ t : Arrangement α, t.Nested ∧ t.postorder = e.stack
  | operand (.call _ function _) => Quotable function
  | operand (.atom _ (.number x)) => x.isNaN = false ∧ x.isNegative = false
  | operand (.atom _ (.bool _)) => False
  | statement (.delete _ _) | filter _ | operand (.not _ _) | operand (.atom _ _) | operator _ =>
    True

/-- All nodes of a tree are proper. -/
def Sound (n : Node α) : Prop := ∀ m, n.Within m → m.Proper

/-- What holds of all nodes of a tree holds of all nodes of its parts. -/
theorem Sound.child {n c : Node α} (h : n.Sound) (hc : c ∈ n.children) : c.Sound :=
  fun m hm => h m ((Within.self.child hc).trans hm)

end Node

/-! ## From tokens to trees -/

namespace Grammar

/-- Tokens that can be written. -/
def Textual (I : Input σ) : Prop := ∀ t ∈ I, Writable t.1

@[simp] theorem textual_nil : Textual ([] : Input σ) := by simp [Textual]

@[simp] theorem textual_cons {kind : Kind} {m : σ} {I : Input σ} :
    Textual ((kind, m) :: I) ↔ Writable kind ∧ Textual I := by
  simp [Textual]

@[simp] theorem textual_append {I J : Input σ} : Textual (I ++ J) ↔ Textual I ∧ Textual J := by
  simp [Textual, or_imp, forall_and]

/-- A name that was written has no double quote in it. -/
theorem QualifiedPhrase.quotable {I : Input σ} {q} (h : QualifiedPhrase I q)
    (hI : Textual I) :
    (∀ qualifier ∈ q.node.1, Quotable qualifier) ∧ Quotable q.node.2 := by
  cases h with
  | plain => exact ⟨nofun, (textual_cons.mp hI).1.of_name⟩
  | dotted =>
    simp only [textual_cons] at hI
    obtain ⟨hqualifier, -, hname, -⟩ := hI
    refine ⟨?_, hname.of_name⟩
    rintro _ ⟨⟩
    exact hqualifier.of_name

/-- A number that was written has no sign and is one. -/
theorem literalOf_proper {kind : Kind} {value : Atom} (h : literalOf kind = some value)
    (hkind : Writable kind) (span : α) : (Node.operand (.atom span value)).Proper := by
  unfold literalOf at h
  split at h
  · cases h
    exact hkind.of_number
  · cases h
    trivial
  · exact absurd hkind.of_keyword (by decide)
  · exact absurd hkind.of_keyword (by decide)
  · cases h
    trivial
  · cases h

theorem OperandPhrase.proper {I : Input σ} {x} (h : OperandPhrase I x)
    (hI : Textual I) : (Node.operand x).Proper := by
  cases h with
  | call | callWith => exact (textual_cons.mp hI).1.of_name
  | literal hvalue => exact literalOf_proper hvalue (textual_cons.mp hI).1 _
  | not | column => trivial

theorem StatementPhrase.proper {I : Input σ} {s} (h : StatementPhrase I s)
    (hI : Textual I) : (Node.statement s).Proper := by
  cases h with
  | use => exact (textual_cons.mp (textual_cons.mp hI).2).1.of_name
  | bareSelect => exact nofun
  | select hlist =>
    obtain ⟨first, more, rfl⟩ := hlist.exists_cons
    exact fun _ => List.cons_ne_nil first more
  | selectList => exact nofun
  | insert _ hcolumns hvalues =>
    obtain ⟨column, columns, rfl⟩ := hcolumns.exists_cons
    obtain ⟨value, values, rfl⟩ := hvalues.exists_cons
    exact ⟨List.cons_ne_nil column columns, List.cons_ne_nil value values⟩
  | delete => trivial

/-- Clauses that are kept count. -/
theorem StatementPhrase.selective {I : Input σ} {s c} (h : StatementPhrase I s)
    (hc : .clauses c ∈ (Node.statement s).children) : Selective c.node := by
  cases h with
  | select _ _ selective =>
    obtain rfl : c = _ := by simpa [Node.children] using hc
    exact selective
  | delete _ selective =>
    obtain rfl : c = _ := by simpa [Node.children] using hc
    exact selective
  | use | bareSelect | selectList | insert => simp [Node.children] at hc

/-- Whether clauses are proper depends on the statement that they belong to. -/
theorem NodePhrase.proper {I : Input σ} {n} (h : NodePhrase I n) (hI : Textual I)
    (hclauses : ∀ c, n = .clauses c → Selective c.node) : n.Proper := by
  cases h with
  | statement h => exact h.proper hI
  | clauses => exact hclauses _ rfl
  | tables h =>
    cases h with
    | intro list _ =>
      obtain ⟨first, more, rfl⟩ := list.exists_cons
      exact List.cons_ne_nil first more
  | order h =>
    cases h with
    | intro list _ =>
      obtain ⟨first, more, rfl⟩ := list.exists_cons
      exact List.cons_ne_nil first more
  | table h | column h => exact h.quotable hI
  | expression h =>
    cases h with
    | @intro _ _ _ _ t _ _ nested _ => exact ⟨t, nested, rfl⟩
  | operand h => exact h.proper hI
  | filter | operator => trivial

/-- All that is said of nodes holds of those that were read from a text. -/
theorem ScriptPhrase.sound {I : Input σ} {ss} (h : ScriptPhrase I ss) (hI : Textual I) :
    ∀ s ∈ ss, (Node.statement s).Sound := by
  intro s hs m hm
  obtain ⟨J, hJ, hstatement⟩ := h.laid.exists_infix (List.mem_map_of_mem hs)
  obtain ⟨K, hK, hnode⟩ := hstatement.within hm
  refine hnode.proper (fun t ht => hI t ((hK.trans hJ).subset ht)) ?_
  rintro c rfl
  cases hstatement with
  | statement hstatement => exact hstatement.selective hm.clauses

/-! ## From trees to tokens -/

/-- The grammar has a phrase for this, in tokens that can be written. -/
def Spellable (phrase : Input Unit → α → Prop) (x : α) : Prop := ∃ I, phrase I x ∧ Textual I

/-- Where marks say nothing, anything spans whatever there is. -/
theorem spans_unit {I : Input Unit} (h : I ≠ []) (s : Span Unit) : Spans I s := by
  have hfirst := List.head?_eq_some_head h
  have hlast := List.getLast?_eq_some_getLast h
  exact ⟨by rw [hfirst]; rfl, by rw [hlast]; rfl⟩

theorem writable_point : Writable (.symbol ".") := .mark (c := '.') (by decide)
theorem writable_comma : Writable (.symbol ",") := .mark (c := ',') (by decide)
theorem writable_open : Writable (.symbol "(") := .mark (c := '(') (by decide)
theorem writable_close : Writable (.symbol ")") := .mark (c := ')') (by decide)

/-- Names are written with quotes, so any name without a quote will do. -/
theorem spellable_qualified {q : Spanned (Span Unit) (Option String × String)}
    (hqualifier : ∀ qualifier ∈ q.node.1, Quotable qualifier) (hname : Quotable q.node.2) :
    Spellable QualifiedPhrase q := by
  obtain ⟨span, _ | qualifier, name⟩ := q
  · exact ⟨[(.name name, ())], .plain, by simpa using Writable.name hname⟩
  · refine ⟨[(.name qualifier, ()), (.symbol ".", ()), (.name name, ())], .dotted, ?_⟩
    simpa using ⟨Writable.name (hqualifier qualifier rfl), writable_point, Writable.name hname⟩

/-- A list that is not empty is written with commas. -/
theorem spellable_comma {item : Input Unit → α → Prop} {xs : List α} (hne : xs ≠ [])
    (h : ∀ x ∈ xs, Spellable item x) : Spellable (CommaPhrase item) xs := by
  induction xs with
  | nil => exact (hne rfl).elim
  | cons x xs ih =>
    obtain ⟨⟨I, hI, hwritable⟩, hxs⟩ := List.forall_mem_cons.mp h
    cases xs with
    | nil => exact ⟨I, .single hI, hwritable⟩
    | cons y ys =>
      obtain ⟨J, hJ, hwritable'⟩ := ih (List.cons_ne_nil y ys) hxs
      exact ⟨I ++ (.symbol ",", ()) :: J, .cons hI hJ, by
        simpa using ⟨hwritable, writable_comma, hwritable'⟩⟩

/-- What is absent is written as nothing. -/
theorem spellable_optional {phrase : Input Unit → α → Prop} {found : Option α}
    (h : ∀ x ∈ found, Spellable phrase x) : Spellable (OptionalPhrase phrase) found := by
  cases found with
  | none => exact ⟨[], .absent, textual_nil⟩
  | some x =>
    obtain ⟨I, hI, hwritable⟩ := h x rfl
    exact ⟨I, .present hI, hwritable⟩

/-! ### Expressions -/

theorem ChainPhrase.append {I J : Input σ} {x y links links' kind m o}
    (h : ChainPhrase I x links) (ho : Operator.ofKind? kind = some o)
    (h' : ChainPhrase J y links') :
    ChainPhrase (I ++ (kind, m) :: J) x (links ++ (⟨.single m, o⟩, y) :: links') := by
  induction links generalizing I x with
  | nil =>
    cases h with
    | single first => exact .link first ho h'
  | cons link links ih =>
    cases h with
    | link first operator more =>
      rw [List.append_assoc, List.cons_append]
      exact .link first operator (ih more)

/-- The operands of an arrangement, with its operators between them, are a chain. -/
theorem spellable_chain (t : Arrangement (Span Unit))
    (h : ∀ x, .operand x ∈ t.inorder → Spellable OperandPhrase x) :
    ∃ I first links, ChainPhrase I first links ∧ t.inorder = chainItems first links ∧
      Textual I := by
  induction t with
  | leaf x =>
    obtain ⟨I, hI, hwritable⟩ := h x (by simp [Arrangement.inorder])
    exact ⟨I, x, [], .single hI, rfl, hwritable⟩
  | node l o r ihl ihr =>
    obtain ⟨I, x, links, hchain, heq, hwritable⟩ :=
      ihl fun x hx => h x (by simp [Arrangement.inorder, hx])
    obtain ⟨J, y, links', hchain', heq', hwritable'⟩ :=
      ihr fun x hx => h x (by simp [Arrangement.inorder, hx])
    obtain ⟨kind, hkind, ho⟩ := Writable.operator o.node
    refine ⟨I ++ (kind, ()) :: J, x, links ++ (o, y) :: links', hchain.append ho hchain', ?_, ?_⟩
    · simp [Arrangement.inorder, heq, heq', chainItems]
    · simpa using ⟨hwritable, hkind, hwritable'⟩

/-- A value is written as one token, or as three for a column with a table. -/
theorem spellable_atom {span : Span Unit} {value : Atom}
    (h : (Node.operand (.atom span value)).Sound) : Spellable OperandPhrase (.atom span value) := by
  have hproper := h _ .self
  cases value with
  | column ref =>
    obtain ⟨htable, hcolumn⟩ := h (.column ⟨span, ref⟩) (.child .self (by simp [Node.children]))
    obtain ⟨I, hI, hwritable⟩ := spellable_qualified (q := ⟨span, ref.table, ref.column⟩)
      htable hcolumn
    exact ⟨I, .column (c := ⟨span, ref⟩) hI, hwritable⟩
  | number x =>
    exact ⟨[(.number x, ())], .literal rfl, by simpa using Writable.number hproper.1 hproper.2⟩
  | string text => exact ⟨[(.string text, ())], .literal rfl, by simpa using Writable.string text⟩
  | bool => exact hproper.elim
  | null =>
    exact ⟨[(.keyword "NULL", ())], .literal rfl, by simpa using Writable.keyword (by decide)⟩

mutual

/-- By induction over the tree, together with expressions, items and arguments. -/
theorem spellable_operand (x : Operand (Span Unit)) (h : (Node.operand x).Sound) :
    Spellable OperandPhrase x := by
  match x with
  | .not span y =>
    obtain ⟨I, hI, hwritable⟩ := spellable_operand y (h.child (by simp [Node.children]))
    exact ⟨(.keyword "NOT", ()) :: I, .not hI (spans_unit (List.cons_ne_nil _ _) span), by
      simpa using ⟨Writable.keyword (by decide), hwritable⟩⟩
  | .call span f args =>
    have hf := Writable.name (h _ .self : Quotable f)
    have hargs := spellable_arguments args fun e he => h.child (by simpa [Node.children] using he)
    cases args with
    | nil =>
      exact ⟨[(.name f, ()), (.symbol "(", ()), (.symbol ")", ())], .call, by
        simpa using ⟨hf, writable_open, writable_close⟩⟩
    | cons e es =>
      obtain ⟨I, hI, hwritable⟩ := spellable_comma (List.cons_ne_nil e es) hargs
      exact ⟨(.name f, ()) :: (.symbol "(", ()) :: (I ++ [(.symbol ")", ())]), .callWith hI, by
        simpa using ⟨hf, writable_open, hwritable, writable_close⟩⟩
  | .atom span value => exact spellable_atom h

theorem spellable_expression (e : Expr (Span Unit)) (h : (Node.expression e).Sound) :
    Spellable ExpressionPhrase e := by
  match e with
  | .postfixed span stack =>
    obtain ⟨t, hnested, heq⟩ : (Node.expression (.postfixed span stack)).Proper := h _ .self
    have heq : t.postorder = stack := heq
    have hstack := spellable_items stack fun i hi => h.child (List.mem_map_of_mem hi)
    obtain ⟨I, first, links, hchain, hinorder, hwritable⟩ := spellable_chain t fun x hx =>
      hstack x (heq ▸ Arrangement.mem_postorder_iff.mpr hx)
    have hne : I ≠ [] := hchain.spans.ne_nil
    exact ⟨I, heq ▸ .intro hchain (spans_unit hne span) hnested hinorder, hwritable⟩

theorem spellable_items (items : List (Item (Span Unit)))
    (h : ∀ i ∈ items, (Node.ofItem i).Sound) :
    ∀ x, .operand x ∈ items → Spellable OperandPhrase x := by
  match items with
  | [] => simp
  | .operand y :: more =>
    intro x hx
    rcases List.mem_cons.mp hx with heq | hx
    · cases heq
      exact spellable_operand y (h (.operand y) (by simp))
    · exact spellable_items more (fun i hi => h i (List.mem_cons_of_mem _ hi)) x hx
  | .operator o :: more =>
    intro x hx
    rcases List.mem_cons.mp hx with heq | hx
    · cases heq
    · exact spellable_items more (fun i hi => h i (List.mem_cons_of_mem _ hi)) x hx

theorem spellable_arguments (es : List (Expr (Span Unit)))
    (h : ∀ e ∈ es, (Node.expression e).Sound) : ∀ e ∈ es, Spellable ExpressionPhrase e := by
  match es with
  | [] => simp
  | e :: more =>
    exact List.forall_mem_cons.mpr ⟨spellable_expression e (h e (by simp)),
      spellable_arguments more fun e he => h e (List.mem_cons_of_mem _ he)⟩

end

/-! ### Statements -/

theorem spellable_table {t : Spanned (Span Unit) TableRef} (h : (Node.table t).Sound) :
    Spellable TablePhrase t := by
  obtain ⟨hdatabase, htable⟩ := h _ .self
  exact spellable_qualified (q := ⟨t.span, t.node.database, t.node.table⟩) hdatabase htable

theorem spellable_column {c : Spanned (Span Unit) ColumnRef} (h : (Node.column c).Sound) :
    Spellable ColumnPhrase c := by
  obtain ⟨htable, hcolumn⟩ := h _ .self
  exact spellable_qualified (q := ⟨c.span, c.node.table, c.node.column⟩) htable hcolumn

theorem spellable_from {c : Spanned (Span Unit) (List (Spanned (Span Unit) TableRef))}
    (h : (Node.tables c).Sound) : Spellable FromPhrase c := by
  obtain ⟨I, hI, hwritable⟩ := spellable_comma (h _ .self : c.node ≠ []) fun t ht =>
    spellable_table (h.child (List.mem_map_of_mem ht))
  exact ⟨(.keyword "FROM", ()) :: I, .intro hI (spans_unit (List.cons_ne_nil _ _) c.span), by
    simpa using ⟨Writable.keyword (by decide), hwritable⟩⟩

theorem spellable_where {c : Spanned (Span Unit) (Expr (Span Unit))} (h : (Node.filter c).Sound) :
    Spellable WherePhrase c := by
  obtain ⟨I, hI, hwritable⟩ := spellable_expression c.node (h.child (List.mem_singleton.mpr rfl))
  exact ⟨(.keyword "WHERE", ()) :: I, .intro hI (spans_unit (List.cons_ne_nil _ _) c.span), by
    simpa using ⟨Writable.keyword (by decide), hwritable⟩⟩

theorem spellable_order {c : Spanned (Span Unit) (List (Spanned (Span Unit) ColumnRef))}
    (h : (Node.order c).Sound) : Spellable OrderPhrase c := by
  obtain ⟨I, hI, hwritable⟩ := spellable_comma (h _ .self : c.node ≠ []) fun t ht =>
    spellable_column (h.child (List.mem_map_of_mem ht))
  exact ⟨(.keyword "ORDER", ()) :: (.keyword "BY", ()) :: I,
    .intro hI (spans_unit (List.cons_ne_nil _ _) c.span), by
      simpa using ⟨Writable.keyword (by decide), Writable.keyword (by decide), hwritable⟩⟩

theorem spellable_clauses {c : Spanned (Span Unit) (Clauses (Span Unit))}
    (h : (Node.clauses c).Sound) : Spellable ClausesPhrase c.node := by
  obtain ⟨span, tables, filter, order⟩ := c
  obtain ⟨I, hI, htables⟩ := spellable_optional fun c (hc : c ∈ tables) =>
    spellable_from (h.child (by simpa [Node.children] using hc))
  obtain ⟨J, hJ, hfilter⟩ := spellable_optional fun c (hc : c ∈ filter) =>
    spellable_where (h.child (by simpa [Node.children] using hc))
  obtain ⟨K, hK, horder⟩ := spellable_optional fun c (hc : c ∈ order) =>
    spellable_order (h.child (by simpa [Node.children] using hc))
  exact ⟨I ++ (J ++ K), .intro hI hJ hK, by simpa using ⟨htables, hfilter, horder⟩⟩

/-- Clauses that count are some tokens. -/
theorem Selective.ne_nil {I : Input σ} {c : Clauses (Span σ)} (h : ClausesPhrase I c)
    (hc : Selective c) : I ≠ [] := by
  obtain ⟨s, hs, -⟩ := h.kept?_of_selective hc
  exact hs.ne_nil

/-- Clauses that are kept are written behind the list, or behind DELETE. -/
theorem spellable_statement {s : Statement (Span Unit)} (h : (Node.statement s).Sound) :
    Spellable StatementPhrase s := by
  cases s with
  | use span database =>
    exact ⟨[(.keyword "USE", ()), (.name database, ())], .use, by
      simpa using ⟨Writable.keyword (by decide), Writable.name (h _ .self : Quotable database)⟩⟩
  | select span list kept =>
    by_cases hlist : list = []
    · subst hlist
      have hkept : kept = none := by
        cases kept with
        | none => rfl
        | some c => exact ((h _ .self : _ → [] ≠ []) rfl rfl).elim
      subst hkept
      exact ⟨[(.keyword "SELECT", ())], .bareSelect, by simpa using Writable.keyword (by decide)⟩
    · obtain ⟨I, hI, hwritable⟩ := spellable_comma hlist fun e he =>
        spellable_expression e (h.child (by simp [Node.children, he]))
      cases kept with
      | none =>
        have hnone : ClausesPhrase ([] : Input Unit) ⟨none, none, none⟩ :=
          .intro .absent .absent .absent
        exact ⟨(.keyword "SELECT", ()) :: (I ++ []), .selectList hI hnone (by simp [Selective])
          (spans_unit (List.cons_ne_nil _ _) span), by
            simpa using ⟨Writable.keyword (by decide), hwritable⟩⟩
      | some c =>
        have hc : (Node.clauses c).Sound := h.child (by simp [Node.children])
        have hselective : Selective c.node := hc _ .self
        obtain ⟨J, hJ, hclauses⟩ := spellable_clauses hc
        exact ⟨(.keyword "SELECT", ()) :: (I ++ J), .select hI hJ hselective
          (spans_unit (List.cons_ne_nil _ _) span) (spans_unit (hselective.ne_nil hJ) c.span), by
            simpa using ⟨Writable.keyword (by decide), hwritable, hclauses⟩⟩
  | insert span into columns values =>
    obtain ⟨hcolumns, hvalues⟩ : columns ≠ [] ∧ values ≠ [] := h _ .self
    have hinto : (Node.table into).Sound := h.child (by simp [Node.children])
    obtain ⟨I, hI, hinto⟩ := spellable_table hinto
    obtain ⟨J, hJ, hcolumns⟩ := spellable_comma hcolumns fun c hc =>
      spellable_column (h.child (by simp [Node.children, hc]))
    obtain ⟨K, hK, hvalues⟩ := spellable_comma hvalues fun e he =>
      spellable_expression e (h.child (by simp [Node.children, he]))
    exact ⟨_, @StatementPhrase.insert Unit () () I () J () () () K () _ _ _ hI hJ hK, by
        simpa using ⟨Writable.keyword (by decide), Writable.keyword (by decide), hinto,
          writable_open, hcolumns, writable_close, Writable.keyword (by decide), writable_open,
          hvalues, writable_close⟩⟩
  | delete span c =>
    have hc : (Node.clauses c).Sound := h.child (by simp [Node.children])
    have hselective : Selective c.node := hc _ .self
    obtain ⟨J, hJ, hclauses⟩ := spellable_clauses hc
    exact ⟨(.keyword "DELETE", ()) :: J, .delete hJ hselective
      (spans_unit (List.cons_ne_nil _ _) span) (spans_unit (hselective.ne_nil hJ) c.span), by
        simpa using ⟨Writable.keyword (by decide), hclauses⟩⟩

/-- Statements need nothing between them. -/
theorem spellable_script {ss : List (Statement (Span Unit))}
    (h : ∀ s ∈ ss, (Node.statement s).Sound) : Spellable ScriptPhrase ss := by
  induction ss with
  | nil => exact ⟨[], .nil, textual_nil⟩
  | cons s ss ih =>
    obtain ⟨hs, hss⟩ := List.forall_mem_cons.mp h
    obtain ⟨I, hI, hwritable⟩ := spellable_statement hs
    obtain ⟨J, hJ, hwritable'⟩ := ih hss
    exact ⟨I ++ J, .cons hI hJ, textual_append.mpr ⟨hwritable, hwritable'⟩⟩

end Grammar

end SqlScript

import SqlScript.Proofs.Grammar.Proper
import SqlScript.Proofs.Script.Compose
import SqlScript.Proofs.Tree.Encoded

/-!
# JSON is a faithful image

A source has no number that is negative or not a number. Its tree can therefore be told by its
text, and equality is an equivalence on all that comes from sources (`readSource_faithful`).
-/

namespace SqlScript

variable {α β γ : Type}

/-! ## Documents of sound trees -/

theorem Atom.plain {span : α} {a : Atom} (h : (Node.operand (.atom span a)).Proper) :
    a.toJson.Plain := by
  cases a with
  | number x =>
    have hx : x.isNaN = false ∧ x.isNegative = false := h
    simpa [toJson] using hx
  | bool => exact h.elim
  | column c => exact c.plain
  | string | null => simp [toJson]

mutual

theorem Operand.plain (x : Operand α) (h : (Node.operand x).Sound) : x.toJson.Plain := by
  match x with
  | .not _ value =>
    simpa [Operand.toJson] using value.plain (h.child (by simp [Node.children]))
  | .call _ _ args =>
    simpa [Operand.toJson] using
      Expr.listToJson_plain args fun e he => h.child (by simpa [Node.children] using he)
  | .atom _ a => exact Atom.plain (h _ .self)

theorem Expr.plain (e : Expr α) (h : (Node.expression e).Sound) : e.toJson.Plain := by
  match e with
  | .postfixed _ stack =>
    simpa [Expr.toJson] using
      Item.listToJson_plain stack fun i hi => h.child (List.mem_map_of_mem hi)

theorem Expr.listToJson_plain (es : List (Expr α)) (h : ∀ e ∈ es, (Node.expression e).Sound) :
    ∀ j ∈ Expr.listToJson es, j.Plain := by
  match es with
  | [] => simp [Expr.listToJson]
  | e :: es =>
    obtain ⟨he, hes⟩ := List.forall_mem_cons.mp h
    exact List.forall_mem_cons.mpr ⟨e.plain he, Expr.listToJson_plain es hes⟩

theorem Item.listToJson_plain (is : List (Item α)) (h : ∀ i ∈ is, (Node.ofItem i).Sound) :
    ∀ j ∈ Item.listToJson is, j.Plain := by
  match is with
  | [] => simp [Item.listToJson]
  | .operand x :: is =>
    obtain ⟨hx, his⟩ := List.forall_mem_cons.mp h
    exact List.forall_mem_cons.mpr ⟨x.plain hx, Item.listToJson_plain is his⟩
  | .operator o :: is =>
    obtain ⟨-, his⟩ := List.forall_mem_cons.mp h
    refine List.forall_mem_cons.mpr ⟨?_, Item.listToJson_plain is his⟩
    simp [Item.toJson, Operator.toJson]

end

theorem Clauses.plain {c : Spanned α (Clauses α)} (h : (Node.clauses c).Sound) :
    c.node.toJson.Plain := by
  obtain ⟨span, tables, filter, order⟩ := c
  have hfilter : ∀ e ∈ filter, e.node.toJson.Plain := fun e he =>
    have hnode : (Node.filter e).Sound := h.child (by simpa [Node.children] using he)
    e.node.plain (hnode.child (List.mem_singleton.mpr rfl))
  cases tables <;> cases filter <;> cases order <;>
    simp_all [toJson, TableRef.plain, ColumnRef.plain]

theorem Statement.plain {s : Statement α} (h : (Node.statement s).Sound) : s.toJson.Plain := by
  cases s with
  | use => simp [toJson]
  | select _ list kept =>
    have hlist := Expr.listToJson_plain list fun e he => h.child (by simp [Node.children, he])
    have hkept : ∀ k ∈ kept, k.node.toJson.Plain := fun k hk =>
      Clauses.plain (h.child (by simp [Node.children, Option.mem_def.mp hk]))
    cases kept <;> cases list <;> simp_all [toJson]
  | insert _ into columns values =>
    have hvalues := Expr.listToJson_plain values fun e he => h.child (by simp [Node.children, he])
    simpa [toJson, TableRef.plain, ColumnRef.plain] using hvalues
  | delete _ kept =>
    have hkept := Clauses.plain (h.child (c := .clauses kept) (by simp [Node.children]))
    simpa [toJson] using hkept

namespace Node

/-! ## Equal nodes -/

/-- Equality of nodes of one kind. -/
def same : Node α → Node β → Bool
  | statement s, statement t => s.same t
  | clauses c, clauses d => Spanned.same Clauses.same c d
  | tables c, tables d => Spanned.same (sameList (Spanned.same (· == ·))) c d
  | filter c, filter d => Spanned.same Expr.same c d
  | order c, order d => Spanned.same (sameList (Spanned.same (· == ·))) c d
  | table t, table u => Spanned.same (· == ·) t u
  | column c, column d => Spanned.same (· == ·) c d
  | expression e, expression f => e.same f
  | operand x, operand y => x.same y
  | operator o, operator p => Spanned.same (· == ·) o p
  | _, _ => false

/-- What a node is written as: the kind of node, and its documents. -/
def written : Node α → String × List Json
  | statement s => ("statement", [s.toJson])
  | clauses c => ("clauses", [c.node.toJson])
  | tables c => ("tables", c.node.map (·.node.toJson))
  | filter c => ("filter", [c.node.toJson])
  | order c => ("order", c.node.map (·.node.toJson))
  | table t => ("table", [t.node.toJson])
  | column c => ("column", [c.node.toJson])
  | expression e => ("expression", [e.toJson])
  | operand x => ("operand", [x.toJson])
  | operator o => ("operator", [o.node.toJson])

theorem written_eq_iff {n : Node α} {m : Node β} (hn : n.Sound) (hm : m.Sound) :
    n.written = m.written ↔ n.same m = true := by
  cases n with
  | statement s =>
    cases m with
    | statement t =>
      simp [written, same, s.toJson_eq_iff t (Statement.plain hn) (Statement.plain hm)]
    | _ => simp [written, same]
  | clauses c =>
    cases m with
    | clauses d =>
      simp [written, same, Spanned.same,
        c.node.toJson_eq_iff d.node (Clauses.plain hn) (Clauses.plain hm)]
    | _ => simp [written, same]
  | tables c =>
    cases m with
    | tables d => simp [written, same, Spanned.same, tables_toJson_eq_iff]
    | _ => simp [written, same]
  | filter c =>
    cases m with
    | filter d =>
      have hc := c.node.plain (hn.child (List.mem_singleton.mpr rfl))
      have hd := d.node.plain (hm.child (List.mem_singleton.mpr rfl))
      simp [written, same, Spanned.same, c.node.toJson_eq_iff d.node hc hd]
    | _ => simp [written, same]
  | order c =>
    cases m with
    | order d => simp [written, same, Spanned.same, columns_toJson_eq_iff]
    | _ => simp [written, same]
  | table t =>
    cases m with
    | table u => simp [written, same, Spanned.same, TableRef.toJson_eq_iff]
    | _ => simp [written, same]
  | column c =>
    cases m with
    | column d => simp [written, same, Spanned.same, ColumnRef.toJson_eq_iff]
    | _ => simp [written, same]
  | expression e =>
    cases m with
    | expression f => simp [written, same, e.toJson_eq_iff f (e.plain hn) (f.plain hm)]
    | _ => simp [written, same]
  | operand x =>
    cases m with
    | operand y => simp [written, same, x.toJson_eq_iff y (x.plain hn) (y.plain hm)]
    | _ => simp [written, same]
  | operator o =>
    cases m with
    | operator p => simp [written, same, Spanned.same, Operator.toJson_eq_iff]
    | _ => simp [written, same]

end Node

/-! ## What comes from sources -/

/-- A script that some source is read as. -/
def FromSource (ss : List (Statement (Span Token))) : Prop :=
  ∃ depth source, readSource depth source = .ok ss

/-- A node of such a script. -/
def Node.FromSource (n : Node (Span Token)) : Prop :=
  ∃ ss, SqlScript.FromSource ss ∧ ∃ s ∈ ss, (Node.statement s).Within n

theorem FromSource.sound {ss : List (Statement (Span Token))} (h : FromSource ss) :
    ∀ s ∈ ss, (Node.statement s).Sound := by
  obtain ⟨depth, source, hread⟩ := h
  obtain ⟨ts, hts, hss⟩ := readSource_ok_iff.mp hread
  have hphrase := (Grammar.script_ok_iff.mp (readTokens_ok_iff.mp hss)).1
  exact hphrase.sound (List.forall_mem_map.mpr (Source.writable hts))

theorem FromSource.scriptJson_eq_iff {ss ts : List (Statement (Span Token))} (hss : FromSource ss)
    (hts : FromSource ts) :
    scriptJson ss = scriptJson ts ↔ sameList Statement.same ss ts = true :=
  SqlScript.scriptJson_eq_iff (fun s hs => Statement.plain (hss.sound s hs))
    fun t ht => Statement.plain (hts.sound t ht)

theorem Node.FromSource.sound {n : Node (Span Token)} (h : n.FromSource) : n.Sound := by
  obtain ⟨ss, hss, s, hs, hn⟩ := h
  exact fun m hm => hss.sound s hs m (hn.trans hm)

/-- What tells things apart as something else does is an equivalence. -/
theorem equivalence_of_eq_iff {r : α → α → Prop} (f : α → β) (h : ∀ a b, f a = f b ↔ r a b) :
    Equivalence r where
  refl a := (h a a).mp rfl
  symm hab := (h _ _).mp ((h _ _).mpr hab).symm
  trans hab hbc := (h _ _).mp (((h _ _).mpr hab).trans ((h _ _).mpr hbc))

/-- Of all scripts that come from sources, two have the same text if and only if they are equal.
Equality is an equivalence on these scripts and on their nodes, none of which is a negative zero or
not a number. -/
theorem readSource_faithful :
    (∀ ss ts, FromSource ss → FromSource ts →
      (scriptJson ss = scriptJson ts ↔ sameList Statement.same ss ts = true)) ∧
    Equivalence (fun ss ts : { ss // FromSource ss } =>
      sameList Statement.same ss.1 ts.1 = true) ∧
    Equivalence (fun n m : { n : Node (Span Token) // n.FromSource } => n.1.same m.1 = true) ∧
    ∀ span x, (Node.operand (.atom span (.number x))).FromSource →
      x.isNaN = false ∧ x.isNegative = false := by
  refine ⟨fun ss ts hss hts => hss.scriptJson_eq_iff hts, ?_, ?_, fun span x h => h.sound _ .self⟩
  · exact equivalence_of_eq_iff (fun ss => scriptJson ss.1) fun ss ts =>
      ss.2.scriptJson_eq_iff ts.2
  · exact equivalence_of_eq_iff (fun n => n.1.written) fun n m =>
      Node.written_eq_iff n.2.sound m.2.sound

/-- `NULL` and a column of that name are written differently. -/
theorem readSource_faithful_null :
    ∃ ss ts, readSource 1 ⟨"", "select null"⟩ = .ok ss ∧
      readSource 1 ⟨"", "select \"NULL\""⟩ = .ok ts ∧ scriptJson ss ≠ scriptJson ts := by
  have hunequal : (match readSource 1 ⟨"", "select null"⟩, readSource 1 ⟨"", "select \"NULL\""⟩ with
      | .ok ss, .ok ts => !sameList Statement.same ss ts
      | _, _ => false) = true := by decide +kernel
  split at hunequal
  · rename_i ss ts hss hts
    refine ⟨ss, ts, hss, hts, fun h => ?_⟩
    rw [(readSource_faithful.1 ss ts ⟨1, _, hss⟩ ⟨1, _, hts⟩).mp h] at hunequal
    exact absurd hunequal (by decide)
  · exact absurd hunequal (by decide)

end SqlScript

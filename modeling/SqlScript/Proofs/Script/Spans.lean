import SqlScript.Proofs.Grammar.Nodes
import SqlScript.Proofs.Grammar.Numbered

/-!
# Spans are the tokens that a node was read from

Whatever can be read, its nodes take intervals of the tokens: children inside their parents and
apart from each other, the items of an expression without gaps, and the statements in order with
nothing but semicolons between them. The tokens of an interval alone are read as the same node
again (`readTokens_placed`).
-/

namespace SqlScript

open Grammar

/-! ## Intervals -/

namespace Node

variable {n : Nat}

/-- The index of the first token. -/
def start (x : Node (Span (Fin n))) : Nat := x.span.first.val

/-- The index behind the last token. -/
def stop (x : Node (Span (Fin n))) : Nat := x.span.last.val + 1

end Node

/-- Nodes one after another, without a gap, from one index up to another. -/
def Tiles {n : Nat} : Nat → List (Node (Span (Fin n))) → Nat → Prop
  | lo, [], hi => lo = hi
  | lo, x :: xs, hi => x.start = lo ∧ Tiles x.stop xs hi

section Counted

variable {n k : Nat} {I : Input (Fin n)}

theorem Counted.mem (h : Counted k I) {t} (ht : t ∈ I) : k ≤ t.2.val ∧ t.2.val < k + I.length := by
  have hmem : t.2.val ∈ List.range' k I.length := h ▸ List.mem_map_of_mem ht
  simpa [List.mem_range'_1] using hmem

theorem Spans.counted {s : Span (Fin n)} (h : Spans I s) (hcount : Counted k I) :
    s.first.val = k ∧ s.last.val + 1 = k + I.length := by
  have hlength : I.length ≠ 0 := mt List.length_eq_zero_iff.mp h.ne_nil
  obtain ⟨hfirst, hlast⟩ := h
  have hhead := congrArg List.head? hcount
  have hgetLast := congrArg List.getLast? hcount
  rw [List.head?_map, List.head?_range', if_neg hlength] at hhead
  rw [List.getLast?_map, List.getLast?_range', if_neg hlength] at hgetLast
  obtain ⟨t, ht, hs⟩ := Option.map_eq_some_iff.mp hfirst
  obtain ⟨u, hu, hs'⟩ := Option.map_eq_some_iff.mp hlast
  rw [ht, Option.map_some, hs, Option.some.injEq] at hhead
  rw [hu, Option.map_some, hs', Option.some.injEq] at hgetLast
  omega

theorem Grammar.NodePhrase.interval {x} (h : NodePhrase I x) (hcount : Counted k I) :
    x.start = k ∧ x.stop = k + I.length := h.spans.counted hcount

theorem Grammar.Laid.ordered {xs} (h : Laid I xs) (hcount : Counted k I) :
    xs.Pairwise (fun x y => x.stop ≤ y.start) ∧ ∀ x ∈ xs, k ≤ x.start ∧ x.stop ≤ k + I.length := by
  induction h generalizing k with
  | nil => exact ⟨.nil, nofun⟩
  | @cons I J x xs gap first _ ih =>
    rw [counted_append, counted_append] at hcount
    obtain ⟨-, hI, hJ⟩ := hcount
    obtain ⟨hstart, hstop⟩ := first.interval hI
    obtain ⟨hordered, hinside⟩ := ih hJ
    simp only [List.length_append]
    refine ⟨.cons (fun y hy => ?_) hordered, List.forall_mem_cons.mpr ⟨by omega, fun y hy => ?_⟩⟩
    · exact hstop ▸ (hinside y hy).1
    · have := hinside y hy
      omega

theorem Grammar.Paved.tiles {xs} (h : Paved I xs) (hcount : Counted k I) :
    Tiles k xs (k + I.length) := by
  induction h generalizing k with
  | nil => rfl
  | cons first _ ih =>
    rw [counted_append] at hcount
    obtain ⟨hstart, hstop⟩ := first.interval hcount.1
    refine ⟨hstart, ?_⟩
    rw [hstop, List.length_append, ← Nat.add_assoc]
    exact ih hcount.2

/-- Only semicolons stand outside the statements. -/
theorem Grammar.ScriptPhrase.semicolon_of_outside {ss} (h : ScriptPhrase I ss)
    (hcount : Counted k I) {t} (ht : t ∈ I)
    (hout : ∀ s ∈ ss, t.2.val < (Node.statement s).start ∨ (Node.statement s).stop ≤ t.2.val) :
    t.1 = .symbol ";" := by
  induction h generalizing k with
  | nil => cases ht
  | semicolon _ ih =>
    rcases List.mem_cons.mp ht with rfl | ht
    · rfl
    · exact ih (counted_cons.mp hcount).2 ht hout
  | cons first _ ih =>
    rw [counted_append] at hcount
    rw [List.forall_mem_cons] at hout
    rcases List.mem_append.mp ht with ht | ht
    · have hmem := hcount.1.mem ht
      have hfirst := NodePhrase.interval (.statement first) hcount.1
      omega
    · exact ih hcount.2 ht hout.2

end Counted

/-! ## Reading an interval alone -/

variable {depth : Nat} {tokens : List Token}

/-- The tokens of a node. -/
def Node.slice (tokens : List Token) (x : Node (Span (Fin tokens.length))) : List Token :=
  (tokens.take x.stop).drop x.start

/-- The tokens of a node are read as this node when there are no others. -/
def Rereads (depth : Nat) (tokens : List Token) (x : Node (Span (Fin tokens.length))) : Prop :=
  let alone := x.slice tokens
  match x with
  | .statement s => (readTokens depth alone).2 = .ok [s.map (.map tokens.get)]
  | .expression e => ∃ r, Reader.ofTokens? depth alone = some r ∧
      r.expression 0 = .ok (some (alone.length, e.map (.map tokens.get)))
  | .operand y => ∃ r, Reader.ofTokens? depth alone = some r ∧
      r.operand 0 = .ok (some (alone.length, y.map (.map tokens.get)))
  | .column c => ∃ r, Reader.ofTokens? depth alone = some r ∧
      r.column 0 = .ok (some (alone.length, c.map (.map tokens.get) id))
  | _ => True

theorem exists_counted {K : Input (Fin tokens.length)} (h : K <:+: numbered tokens) :
    ∃ I J, numbered tokens = I ++ K ++ J ∧ Counted I.length K := by
  obtain ⟨I, J, hIJ⟩ := h
  have hcount := counted_numbered tokens
  rw [← hIJ, counted_append, counted_append, Nat.zero_add] at hcount
  exact ⟨I, J, hIJ.symm, hcount.1.2⟩

theorem Grammar.NodePhrase.marked_slice {K : Input (Fin tokens.length)} {x} (h : NodePhrase K x)
    (hK : K <:+: numbered tokens) : marked (x.slice tokens) = K.remark tokens.get := by
  obtain ⟨I, J, hIJ, hcount⟩ := exists_counted hK
  obtain ⟨hstart, hstop⟩ := h.interval hcount
  have hslice : marked (x.slice tokens) = ((marked tokens).take x.stop).drop x.start := by
    simp [Node.slice, marked, List.map_take, List.map_drop]
  rw [hslice, ← remark_numbered, hIJ, Input.remark_append, Input.remark_append,
    List.take_left' (by simp [hstop]), List.drop_left' (by simp [hstart])]

/-- A rule that reads phrases takes all of the tokens that a phrase stands for. -/
theorem reads_alone {σ α β : Type} {f : σ → Token} {g : α → β} {rule : Rule σ α}
    {rule' : Rule Token β} {phrase continues} (hreads : rule.Reads phrase continues)
    (hcarries : rule.Carries f g rule') {K : Input σ} {value : α} (hphrase : phrase K value)
    {alone : List Token} (halone : marked alone = K.remark f) (hne : alone ≠ []) (d : Nat) :
    ∃ r, Reader.ofTokens? d alone = some r ∧ r.maxDepth = d ∧
      r.readAt rule' 0 = .ok (some (alone.length, g value)) := by
  obtain ⟨first, more, rfl⟩ := List.exists_cons_of_ne_nil hne
  refine ⟨⟨first, more, d⟩, rfl, rfl, ?_⟩
  have hread := hreads.complete hphrase .nil
  rw [List.append_nil] at hread
  have hinput : (⟨first, more, d⟩ : Reader).input = K.remark f := halone
  rw [Reader.readAt, hinput, List.drop_zero, hcarries K, hread]
  rfl

theorem Grammar.NodePhrase.rereads {K : Input (Fin tokens.length)} {x} (h : NodePhrase K x)
    (hK : K <:+: numbered tokens) (hneed : x.need ≤ depth) : Rereads depth tokens x := by
  have hslice := h.marked_slice hK
  have hne : x.slice tokens ≠ [] := fun hnil => by
    rw [hnil] at hslice
    exact h.spans.ne_nil (List.map_eq_nil_iff.mp hslice.symm)
  cases h with
  | @statement K s h =>
    have hscript : (script depth K).result = .ok [s] := by
      have hphrase := ScriptPhrase.cons h .nil
      rw [List.append_nil] at hphrase
      exact script_ok_iff.mpr ⟨hphrase, Nat.max_le.mpr ⟨hneed, Nat.zero_le _⟩⟩
    refine readTokens_ok_iff.mpr ?_
    rw [hslice, script_remark, Reading.map_ok]
    exact ⟨[s], hscript, rfl⟩
  | @expression K e h =>
    obtain ⟨r, hr, rfl, hfound⟩ := reads_alone (reads_expression depth)
      (carries_expression _ depth) ⟨h, hneed⟩ hslice hne depth
    exact ⟨r, hr, hfound⟩
  | @operand K y h =>
    obtain ⟨r, hr, rfl, hfound⟩ := reads_alone (reads_operand depth)
      (carries_operand _ depth) ⟨h, hneed⟩ hslice hne depth
    exact ⟨r, hr, hfound⟩
  | @column K c h =>
    obtain ⟨r, hr, -, hfound⟩ := reads_alone reads_columnRef
      (carries_columnRef _) h hslice hne depth
    exact ⟨r, hr, hfound⟩
  | _ => trivial

/-! ## Placed nodes -/

/-- The node with tokens in the place of their indices. -/
def Node.withTokens (tokens : List Token) (x : Node (Span (Fin tokens.length))) :
    Node (Span Token) := x.map (.map tokens.get)

/-- A node has the tokens from `start` up to `stop` for its own. -/
structure Placed (depth : Nat) (tokens : List Token) (x : Node (Span (Fin tokens.length))) :
    Prop where
  nonempty : x.start < x.stop
  first : tokens[x.start]? = some (x.withTokens tokens).span.first
  last : tokens[x.stop - 1]? = some (x.withTokens tokens).span.last
  inside : ∀ c ∈ x.children, x.start ≤ c.start ∧ c.stop ≤ x.stop
  apart : x.children.Pairwise fun c d => c.stop ≤ d.start ∨ d.stop ≤ c.start
  tiled : ∀ e, x = .expression e → ∃ items, items.Perm x.children ∧ Tiles x.start items x.stop
  rereads : Rereads depth tokens x

theorem Grammar.NodePhrase.placed {K : Input (Fin tokens.length)} {x} (h : NodePhrase K x)
    (hK : K <:+: numbered tokens) (hneed : x.need ≤ depth) : Placed depth tokens x := by
  obtain ⟨I, -, -, hcount⟩ := exists_counted hK
  obtain ⟨hstart, hstop⟩ := h.interval hcount
  have hlength := List.length_pos_iff.mpr h.spans.ne_nil
  obtain ⟨nodes, hperm, hlaid⟩ := h.laid
  obtain ⟨hordered, hinside⟩ := hlaid.ordered hcount
  refine ⟨by omega, by simp [Node.start, Node.withTokens, Span.map],
    by simp [Node.stop, Node.withTokens, Span.map], fun c hc => ?_, ?_, ?_, h.rereads hK hneed⟩
  · have := hinside c (hperm.mem_iff.mpr hc)
    omega
  · exact (hperm.pairwise_iff Or.symm).mp (hordered.imp .inl)
  · rintro e rfl
    cases h with
    | expression h =>
      obtain ⟨items, hperm, hpaved⟩ := h.paved
      refine ⟨items, hperm, ?_⟩
      rw [hstart, hstop]
      exact hpaved.tiles hcount

/-- Whatever can be read, its nodes have intervals of indices for spans. Children lie inside their
parent and apart from each other, items of an expression tile it, statements stand in order with
nothing but semicolons outside them, and the tokens of a node alone are read as this node. -/
theorem readTokens_placed {ss} (h : (readTokens depth tokens).2 = .ok ss) :
    ∃ trees : List (Statement (Span (Fin tokens.length))),
      trees.map (.map (.map tokens.get)) = ss ∧
      (∀ s ∈ ss, ∀ m, (Node.statement s).Within m →
        ∃ t ∈ trees, ∃ x, (Node.statement t).Within x ∧ x.withTokens tokens = m) ∧
      (∀ t ∈ trees, ∀ x, (Node.statement t).Within x → Placed depth tokens x) ∧
      (trees.map Node.statement).Pairwise (fun s t => s.stop ≤ t.start) ∧
      ∀ i : Fin tokens.length,
        (∀ t ∈ trees, i.val < (Node.statement t).start ∨ (Node.statement t).stop ≤ i.val) →
          (tokens.get i).kind = .symbol ";" := by
  obtain ⟨trees, hphrase, hneed, rfl⟩ := readTokens_ok_iff_numbered.mp h
  have hcount := counted_numbered tokens
  refine ⟨trees, rfl, ?_, fun t ht x hx => ?_, (hphrase.laid.ordered hcount).1, fun i hi => ?_⟩
  · intro s hs m hm
    obtain ⟨t, ht, rfl⟩ := List.mem_map.mp hs
    exact ⟨t, ht, Node.Within.of_map (n := .statement t) hm⟩
  · obtain ⟨I, hI, hstatement⟩ := hphrase.laid.exists_infix (List.mem_map_of_mem ht)
    obtain ⟨K, hK, hnode⟩ := hstatement.within hx
    exact hnode.placed (hK.trans hI) (hx.need_le (Statement.needAll_le.mp hneed t ht))
  · have hmem : ((tokens.get i).kind, i) ∈ numbered tokens := List.mem_ofFn.mpr ⟨i, rfl⟩
    exact hphrase.semicolon_of_outside hcount hmem hi

/-- The span of a statement holds the ORDER BY that was dropped from it. -/
theorem readTokens_placed_dropped :
    let select : Token := ⟨.keyword "SELECT", "select", 0, ⟨"", "select a order by b"⟩⟩
    let a : Token := ⟨.name "A", "a", 7, ⟨"", "select a order by b"⟩⟩
    let order : Token := ⟨.keyword "ORDER", "order", 9, ⟨"", "select a order by b"⟩⟩
    let by' : Token := ⟨.keyword "BY", "by", 15, ⟨"", "select a order by b"⟩⟩
    let b : Token := ⟨.name "B", "b", 18, ⟨"", "select a order by b"⟩⟩
    let tokens := [select, a, order, by', b]
    let s : Statement (Span Token) := .select ⟨select, b⟩
      [.postfixed (.single a) [.operand (.atom (.single a) (.column ⟨none, "A"⟩))]] none
    (readTokens 1 tokens).2 = .ok [s] ∧
      ∃ t : Statement (Span (Fin tokens.length)), t.map (.map tokens.get) = s ∧
        Placed 1 tokens (.statement t) := by
  intro select a order by' b tokens s
  have hlist : ExpressionPhrase [(a.kind, a)] (.postfixed (.single a) _) :=
    .intro (t := .leaf _) (.single (.column (c := ⟨.single a, none, "A"⟩) .plain)) (.single _ _)
      trivial rfl
  have horder : ClausesPhrase [(order.kind, order), (by'.kind, by'), (b.kind, b)]
      ⟨none, none, some ⟨⟨order, b⟩, [⟨.single b, none, "B"⟩]⟩⟩ :=
    .intro .absent .absent (.present (.intro (.single .plain) ⟨rfl, rfl⟩))
  have hselect : StatementPhrase (marked tokens) s :=
    .selectList (.single hlist) horder (by simp [Selective]) ⟨rfl, rfl⟩
  have hphrase : ScriptPhrase (marked tokens) [s] := .cons hselect .nil
  have h : (readTokens 1 tokens).2 = .ok [s] :=
    readTokens_ok_iff.mpr (script_ok_iff.mpr ⟨hphrase, by decide⟩)
  obtain ⟨trees, htrees, -, hplaced, -⟩ := readTokens_placed h
  obtain ⟨t, rfl, ht⟩ := List.map_eq_singleton_iff.mp htrees
  exact ⟨h, t, ht, hplaced t (List.mem_singleton.mpr rfl) _ .self⟩

end SqlScript

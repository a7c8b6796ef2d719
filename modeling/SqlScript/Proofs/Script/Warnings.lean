import SqlScript.Proofs.Grammar.Orders
import SqlScript.Proofs.Script.Spans

/-!
# No ORDER BY disappears silently

Every ORDER of a script that can be read begins a clause of the tree or is warned about, and never
both. What is warned about comes in the order of the tokens, once for each SELECT that reaches past
its list. Where reading fails, the warnings are those of the statements before the failure, and one
more for an ORDER BY directly behind DELETE (`readTokens_events`).
-/

namespace SqlScript

open Grammar

/-! ## ORDER BY in the tree -/

/-- A clause ORDER BY of the statement, among clauses that select, begins with this piece. -/
def Statement.Orders {σ : Type} (s : Statement (Span σ)) (mark : σ) : Prop :=
  ∃ c o, (Node.statement s).Within (.clauses c) ∧ Selective c.node ∧
    .order o ∈ (Node.clauses c).children ∧ o.span.first = mark

theorem Node.order_mem_children {σ : Type} {c : Spanned (Span σ) (Clauses (Span σ))} {o} :
    .order o ∈ (Node.clauses c).children ↔ c.node.order = some o := by
  obtain ⟨span, tables, filter, order⟩ := c
  simp [Node.children]

theorem Grammar.StatementPhrase.orders_iff {σ : Type} {I : Input σ} {s} (h : StatementPhrase I s)
    (mark : σ) : s.Orders mark ↔ s.ordered? = some mark := by
  constructor
  · rintro ⟨c, o, hc, -, ho, rfl⟩
    rw [Node.order_mem_children] at ho
    have hchild := hc.clauses
    cases s with
    | select span list kept =>
      obtain rfl : kept = some c := by simpa [Node.children] using hchild
      simp [Statement.ordered?, Clauses.ordered?, ho]
    | delete span kept =>
      obtain rfl : c = kept := by simpa [Node.children] using hchild
      simp [Statement.ordered?, Clauses.ordered?, ho]
    | use | insert => simp [Node.children] at hchild
  · intro hordered
    cases h with
    | select _ _ selective _ _ | delete _ selective _ _ =>
      obtain ⟨o, ho, rfl⟩ := Option.map_eq_some_iff.mp hordered
      exact ⟨_, o, .child .self (by simp [Node.children]), selective,
        Node.order_mem_children.mpr ho, rfl⟩
    | use | bareSelect | selectList | insert => cases hordered

/-! ## Statements that reach past their list -/

/-- A SELECT with a list, without clauses, whose span goes on behind the list. -/
def Statement.overreaches {n : Nat} : Statement (Span (Fin n)) → Bool
  | select span list none => list.getLast?.any fun e => e.span.last < span.last
  | _ => false

variable {n k d : Nat}

theorem overreaches_iff {kind : Kind} {m : Fin n} {I J : Input (Fin n)} {first more span}
    (hlist : Spans I (listSpan Expr.span first more)) (hspan : Spans ((kind, m) :: (I ++ J)) span)
    (hcount : Counted k ((kind, m) :: (I ++ J))) :
    (Statement.select span (first :: more) none).overreaches = true ↔ 0 < J.length := by
  have hall := (hspan.counted hcount).2
  have hlast := (hlist.counted (counted_append.mp (counted_cons.mp hcount).2).1).2
  have hover : (Statement.select span (first :: more) none).overreaches = true ↔
      (listSpan Expr.span first more).last < span.last := by
    simp [Statement.overreaches, listSpan, Span.through, List.getLast?_cons]
  rw [hover, Fin.lt_def]
  simp only [List.length_cons, List.length_append] at hall
  omega

/-- Something was dropped if and only if the span shows it. -/
theorem dropped_isSome {used rest : Input (Fin n)} {draft s}
    (hread : (statement d).read (used ++ rest) = .matched draft rest)
    (hs : draft.statement = .ok s) (hcount : Counted k used) :
    draft.dropped.isSome = s.overreaches := by
  rcases statement_matched hread with
    ⟨span, database, rfl⟩ | ⟨span, into, columns, values, rfl⟩ | hselect | hdelete
  · cases hs
    rfl
  · cases hs
    rfl
  · rcases selectStatement_inv hselect with
      ⟨m, -, -, rfl⟩ | ⟨m, I, J, list, c, span, heq, hlist, -, hc, -, hspan, rfl⟩
    · cases hs
      rfl
    · cases hs
      by_cases hsel : Selective c
      · obtain ⟨inner, -, hkept⟩ := hc.kept?_of_selective hsel
        rw [dropped?_of_selective hsel, hkept]
        rfl
      · rw [dropped?_of_not_selective hsel, kept?_of_not_selective hsel]
        rw [← List.append_assoc, ← List.cons_append] at heq
        cases List.append_cancel_right heq
        obtain ⟨first, more, rfl⟩ := hlist.exists_cons
        rw [Bool.eq_iff_iff, hc.ordered?_isSome hsel,
          overreaches_iff (hlist.spans ExpressionPhrase.spans) hspan hcount]
  · obtain ⟨m, I, c, -, -, -, hdropped, ⟨hsel, inner, -, hok⟩ | ⟨-, herror⟩⟩ :=
      deleteStatement_inv hdelete
    · cases hs.symm.trans hok
      rw [hdropped, dropped?_of_selective hsel]
      rfl
    · cases hs.symm.trans herror

/-! ## Runs -/

/-- The ORDER BY clauses of statements are those of their trees and those that were dropped. -/
structure Shared (I : Input (Fin n)) (trees : List (Statement (Span (Fin n))))
    (dropped : List (Fin n)) : Prop where
  perm : (Input.orders I).Perm (trees.filterMap Statement.ordered? ++ dropped)
  sublist : dropped.Sublist (Input.orders I)
  count : dropped.length = trees.countP Statement.overreaches

namespace Shared

variable {I J : Input (Fin n)} {trees : List (Statement (Span (Fin n)))} {dropped : List (Fin n)}

theorem nil : Shared ([] : Input (Fin n)) [] [] := ⟨.refl _, .refl _, rfl⟩

theorem semicolon {m : Fin n} (h : Shared I trees dropped) :
    Shared ((.symbol ";", m) :: I) trees dropped := by
  have heq : Input.orders ((.symbol ";", m) :: I) = Input.orders I :=
    Input.orders_cons (by decide)
  exact ⟨heq ▸ h.perm, heq ▸ h.sublist, h.count⟩

theorem cons {s : Statement (Span (Fin n))} {lost : Option (Fin n)}
    (horders : Input.orders I = s.ordered?.toList ++ lost.toList)
    (hlost : lost.isSome = s.overreaches) (h : Shared J trees dropped) :
    Shared (I ++ J) (s :: trees) (lost.toList ++ dropped) := by
  have hkept : (s :: trees).filterMap Statement.ordered? =
      s.ordered?.toList ++ trees.filterMap Statement.ordered? := by
    cases hs : s.ordered? <;> simp [hs]
  refine ⟨?_, ?_, ?_⟩
  · rw [Input.orders_append, horders, hkept, List.append_assoc, List.append_assoc]
    refine .append_left _ ?_
    exact (h.perm.append_left _).trans (List.perm_append_comm_assoc _ _ _)
  · rw [Input.orders_append, horders, List.append_assoc]
    exact ((List.Sublist.refl _).append h.sublist).trans (List.sublist_append_right _ _)
  · rw [List.length_append, h.count, List.countP_cons, ← hlost]
    cases lost <;> simp [Nat.add_comm]

end Shared

/-- There is more to read, and no statement in front of it. -/
def Blocked (depth : Nat) {σ : Type} (I : Input σ) : Prop :=
  ∃ first more, I = first :: more ∧ first.1 ≠ .symbol ";" ∧
    ∀ draft rest s, (statement depth).read I = .matched draft rest → draft.statement ≠ .ok s

/-- A run reads statements up to the end or up to where it is blocked. -/
theorem script_run {I : Input (Fin n)} (hcount : Counted k I) :
    ∃ J K trees dropped, I = J ++ K ∧ ScriptPhrase J trees ∧ Statement.needAll trees ≤ d ∧
      Shared J trees dropped ∧
      (K = [] ∧ script d I = ⟨dropped, .ok trees⟩ ∨
        Blocked d K ∧ ∃ failure, script d I = ⟨dropped ++ (stray? K).toList, .error failure⟩) := by
  fun_induction script d I generalizing k with
  | case1 => exact ⟨[], [], [], [], rfl, .nil, Nat.zero_le d, .nil, .inl ⟨rfl, rfl⟩⟩
  | case2 m I ih =>
    obtain ⟨J, K, trees, dropped, rfl, hphrase, hneed, hshared, hrun⟩ :=
      ih (counted_cons.mp hcount).2
    exact ⟨(.symbol ";", m) :: J, K, trees, dropped, rfl, .semicolon hphrase, hneed,
      hshared.semicolon, hrun⟩
  | case3 kind m I hkind habsent =>
    have hnone : ∀ draft rest, (statement d).read ((kind, m) :: I) ≠ .matched draft rest :=
      fun draft rest hread => by cases habsent.symm.trans hread
    exact ⟨[], _, [], [], rfl, .nil, Nat.zero_le d, .nil,
      .inr ⟨⟨_, _, rfl, hkind, fun draft rest s hread => (hnone draft rest hread).elim⟩, _,
        by rw [stray?_eq_none hnone]; rfl⟩⟩
  | case4 kind m I hkind failure hread =>
    have hnone : ∀ draft rest, (statement d).read ((kind, m) :: I) ≠ .matched draft rest :=
      fun draft rest hmatched => by cases hread.symm.trans hmatched
    exact ⟨[], _, [], [], rfl, .nil, Nat.zero_le d, .nil,
      .inr ⟨⟨_, _, rfl, hkind, fun draft rest s hread => (hnone draft rest hread).elim⟩, _,
        by rw [stray?_eq_none hnone]; rfl⟩⟩
  | case5 kind m I hkind draft rest hread failure hs =>
    refine ⟨[], _, [], [], rfl, .nil, Nat.zero_le d, .nil,
      .inr ⟨⟨_, _, rfl, hkind, fun draft' rest' s hread' hs' => ?_⟩, failure, ?_⟩⟩
    · cases hread.symm.trans hread'
      cases hs.symm.trans hs'
    · rw [dropped_of_statement_error hread hs]
      rfl
  | case6 kind m I hkind draft rest hread s hs ih =>
    obtain ⟨used, heq, hphrase, hneed⟩ := statement_sound hread hs
    rw [heq] at hread hcount ⊢
    rw [counted_append] at hcount
    obtain ⟨J, K, trees, dropped, rfl, hphrases, hneeds, hshared, hrun⟩ := ih hcount.2
    refine ⟨used ++ J, K, s :: trees, draft.dropped.toList ++ dropped, (List.append_assoc ..).symm,
      .cons hphrase hphrases, Nat.max_le.mpr ⟨hneed, hneeds⟩,
      hshared.cons (statement_orders hread hs) (dropped_isSome hread hs hcount.1), ?_⟩
    rcases hrun with ⟨rfl, hrun⟩ | ⟨hblocked, failure, hrun⟩
    · exact .inl ⟨rfl, by rw [hrun]; rfl⟩
    · exact .inr ⟨hblocked, failure, by rw [hrun, List.append_assoc]; rfl⟩

/-! ## What is reported -/

/-- Each ORDER in the input begins a clause of the trees or was dropped, and not both; what was
dropped comes in order, once for each statement that reaches past its list. -/
structure Accounted (I : Input (Fin n)) (trees : List (Statement (Span (Fin n))))
    (dropped : List (Fin n)) : Prop where
  each : ∀ i, (.keyword "ORDER", i) ∈ I ↔ (∃ t ∈ trees, t.Orders i) ∨ i ∈ dropped
  once : ∀ t ∈ trees, ∀ i, t.Orders i → i ∉ dropped
  inOrder : dropped.Pairwise (· < ·)
  count : dropped.length = trees.countP Statement.overreaches

theorem Counted.pairwise {I : Input (Fin n)} (h : Counted k I) :
    (I.map Prod.snd).Pairwise (· < ·) := by
  have hrange : (I.map fun t => t.2.val).Pairwise (· < ·) := h ▸ List.pairwise_lt_range'
  rw [List.pairwise_map] at hrange ⊢
  exact hrange

theorem Shared.accounted {I : Input (Fin n)} {trees dropped} (h : Shared I trees dropped)
    (hphrase : ScriptPhrase I trees) (hcount : Counted k I) : Accounted I trees dropped := by
  have hsorted : (Input.orders I).Pairwise (· < ·) :=
    hcount.pairwise.sublist (List.filter_sublist.map Prod.snd)
  have hkept : ∀ t ∈ trees, ∀ i, t.Orders i ↔ t.ordered? = some i := fun t ht i => by
    obtain ⟨K, -, hK⟩ := hphrase.laid.exists_infix (List.mem_map_of_mem ht)
    cases hK with
    | statement hK => exact hK.orders_iff i
  refine ⟨fun i => ?_, fun t ht i hi hdropped => ?_, hsorted.sublist h.sublist, h.count⟩
  · rw [← Input.mem_orders, h.perm.mem_iff, List.mem_append, List.mem_filterMap]
    exact or_congr_left (exists_congr fun t => and_congr_right fun ht => (hkept t ht i).symm)
  · have hdistinct := h.perm.nodup_iff.mp (hsorted.imp Fin.ne_of_lt)
    exact (List.nodup_append.mp hdistinct).2.2 i
      (List.mem_filterMap.mpr ⟨t, ht, (hkept t ht i).mp hi⟩) i hdropped rfl

/-- What became of a whole list of tokens. -/
def outcomeEvent (tokens : List Token) :
    Except SyntaxError (List (Statement (Span Token))) → Event
  | .ok ss => .read ss.length tokens.length
  | .error e => .readFailed e.cause.message e.token.position

theorem readTokens_events_eq {depth : Nat} {tokens : List Token} (h : tokens ≠ []) :
    (readTokens depth tokens).1 =
      (script depth (numbered tokens)).dropped.map
          (fun i => .orderDropped (tokens.get i).position) ++
        [outcomeEvent tokens (readTokens depth tokens).2] := by
  obtain ⟨first, more, rfl⟩ := List.exists_cons_of_ne_nil h
  have hevents : (readTokens depth (first :: more)).1 =
      (script depth (marked (first :: more))).dropped.map (fun t => .orderDropped t.position) ++
        [outcomeEvent (first :: more) (readTokens depth (first :: more)).2] := rfl
  rw [hevents, ← remark_numbered, script_remark, Reading.map, List.map_map]
  rfl

end SqlScript

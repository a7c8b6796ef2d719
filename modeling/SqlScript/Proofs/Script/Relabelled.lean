import SqlScript.Proofs.Grammar.Numbered

/-!
# Only the kinds of tokens are looked at

Tokens may be written in any way, stand at any offset and come from any source. As long as their
kinds stay the same, a script and every construct are read as the same tree, with the tokens at the
same indices in its spans, or with the same failure at the same index (`readTokens_relabelled`).
-/

namespace SqlScript

open Grammar

variable {depth : Nat} {ts us : List Token}

/-- Two outcomes are one outcome in terms of indices: a value that becomes both of them with the
tokens of either list for its marks, or a failure at an index of both lists. -/
def SameOutcome (hlength : ts.length = us.length) {α β : Type}
    (mark : (Fin ts.length → Token) → α → β) (x y : Except SyntaxError β) : Prop :=
  (∃ value, x = .ok (mark ts.get value) ∧
    y = .ok (mark (fun i => us.get (i.cast hlength)) value)) ∨
  ∃ i cause, x = .error ⟨ts.get i, cause⟩ ∧ y = .error ⟨us.get (i.cast hlength), cause⟩

/-! ## Scripts -/

theorem sameOutcome_script (depth : Nat) (hlength : ts.length = us.length)
    (hkinds : us.map Token.kind = ts.map Token.kind) :
    SameOutcome hlength (fun token => List.map (Statement.map (Span.map token)))
      (readTokens depth ts).2 (readTokens depth us).2 := by
  rcases readTokens_of_kinds depth hlength hkinds with hok |
    ⟨i, t, u, cause, ht, hu, hleft, hright⟩
  · exact .inl hok
  · obtain ⟨hi, rfl⟩ := List.getElem?_eq_some_iff.mp ht
    obtain ⟨_, rfl⟩ := List.getElem?_eq_some_iff.mp hu
    exact .inr ⟨⟨i, hi⟩, cause, hleft, hright⟩

/-! ## Constructs -/

namespace Reader

variable {r s : Reader}

theorem of_ofTokens? (h : ofTokens? depth ts = some r) : r.tokens = ts ∧ r.maxDepth = depth := by
  cases ts with
  | nil => cases h
  | cons first more =>
    cases h
    exact ⟨rfl, rfl⟩

/-- A rule that reads tokens does with their numbers what it does with the tokens. Past the end a
failure points at the last one. -/
theorem readAt_numbered {α β : Type} {rule : Rule (Fin ts.length) α} {rule' : Rule Token β}
    {g : α → β} (hlength : ts.length = r.tokens.length)
    (hkinds : r.tokens.map Token.kind = ts.map Token.kind)
    (hcarries : rule.Carries (fun i => r.tokens.get (i.cast hlength)) g rule')
    (last : Fin ts.length) (hlast : last.val = ts.length - 1) (index : Nat) :
    r.readAt rule' index =
      match rule.read ((numbered ts).drop index) with
      | .absent => .ok none
      | .matched value rest => .ok (some (ts.length - rest.length, g value))
      | .malformed failure =>
        .error ⟨r.tokens.get ((failure.mark.getD last).cast hlength), failure.cause⟩ := by
  have hinput : r.input.drop index =
      Input.remark (fun i => r.tokens.get (i.cast hlength)) ((numbered ts).drop index) := by
    have hall := remark_numbered_of_kinds hlength hkinds
    rw [Input.remark, List.map_drop]
    exact congrArg (List.drop index) hall.symm
  have hend : r.last = r.tokens.get (last.cast hlength) :=
    (List.getLast_eq_getElem _).trans (by simp [hlast, hlength])
  rw [readAt, hinput, hcarries]
  cases rule.read ((numbered ts).drop index) with
  | absent => rfl
  | matched value rest => simp only [Outcome.map, Input.length_remark, hlength]
  | malformed failure =>
    obtain ⟨cause, mark⟩ := failure
    cases mark with
    | none => simp only [Outcome.map, Failure.map, resolve, Option.map_none, Option.getD_none, hend]
    | some i => rfl

theorem sameOutcome_readAt {α β : Type} {rule : Rule (Fin ts.length) α} {rule' : Rule Token β}
    {mark : (Fin ts.length → Token) → α → β} (hcarries : ∀ f, rule.Carries f (mark f) rule')
    (hr : ofTokens? depth ts = some r) (hs : ofTokens? depth us = some s)
    (hlength : ts.length = us.length) (hkinds : us.map Token.kind = ts.map Token.kind)
    (index : Nat) :
    SameOutcome hlength (fun token => Option.map (Prod.map id (mark token)))
      (r.readAt rule' index) (s.readAt rule' index) := by
  obtain ⟨rfl, -⟩ := of_ofTokens? hr
  obtain ⟨rfl, -⟩ := of_ofTokens? hs
  let last : Fin r.tokens.length := ⟨r.tokens.length - 1, Nat.sub_lt (Nat.succ_pos _) Nat.one_pos⟩
  rw [readAt_numbered rfl rfl (hcarries _) last rfl index,
    readAt_numbered hlength hkinds (hcarries _) last rfl index]
  cases rule.read ((numbered r.tokens).drop index) with
  | absent => exact .inl ⟨none, rfl, rfl⟩
  | matched value rest => exact .inl ⟨some (r.tokens.length - rest.length, value), rfl, rfl⟩
  | malformed failure => exact .inr ⟨failure.mark.getD last, failure.cause, rfl, rfl⟩

end Reader

/-- Tokens of the same kinds are read alike, as a script and, at every index, as an expression, an
operand or a column, also with the same index behind what was read. -/
theorem readTokens_relabelled (depth : Nat) (hkinds : us.map Token.kind = ts.map Token.kind) :
    let hlength := length_eq_of_kinds hkinds
    SameOutcome hlength (fun token => List.map (Statement.map (Span.map token)))
      (readTokens depth ts).2 (readTokens depth us).2 ∧
    (Reader.ofTokens? depth ts).isSome = (Reader.ofTokens? depth us).isSome ∧
    ∀ r s, Reader.ofTokens? depth ts = some r → Reader.ofTokens? depth us = some s → ∀ index,
      SameOutcome hlength (fun token => Option.map (Prod.map id (Expr.map (Span.map token))))
        (r.expression index) (s.expression index) ∧
      SameOutcome hlength (fun token => Option.map (Prod.map id (Operand.map (Span.map token))))
        (r.operand index) (s.operand index) ∧
      SameOutcome hlength (fun token => Option.map (Prod.map id (Spanned.map (Span.map token) id)))
        (r.column index) (s.column index) := by
  intro hlength
  refine ⟨sameOutcome_script depth hlength hkinds, ?_, fun r s hr hs index => ?_⟩
  · cases ts <;> cases us <;> first | rfl | cases hlength
  · obtain ⟨-, hdepth⟩ := Reader.of_ofTokens? hr
    obtain ⟨-, hdepth'⟩ := Reader.of_ofTokens? hs
    refine ⟨?_, ?_, Reader.sameOutcome_readAt carries_columnRef hr hs hlength hkinds index⟩
    · rw [Reader.expression, Reader.expression, hdepth, hdepth']
      exact Reader.sameOutcome_readAt (fun f => carries_expression f depth) hr hs hlength hkinds
        index
    · rw [Reader.operand, Reader.operand, hdepth, hdepth']
      exact Reader.sameOutcome_readAt (fun f => carries_operand f depth) hr hs hlength hkinds index

/-- The last token stands for the missing one in both lists. -/
theorem readTokens_relabelled_unfinished :
    let a : Token := ⟨.name "A", "a", 0, ⟨"", "a."⟩⟩
    let dot : Token := ⟨.symbol ".", ".", 1, ⟨"", "a."⟩⟩
    let a' : Token := ⟨.name "A", "elsewhere", 7, default⟩
    let dot' : Token := ⟨.symbol ".", "", 7, default⟩
    [a', dot'].map Token.kind = [a, dot].map Token.kind ∧
      ∃ r s, Reader.ofTokens? 1 [a, dot] = some r ∧ Reader.ofTokens? 1 [a', dot'] = some s ∧
        r.expression 0 = .error ⟨dot, .columnName⟩ ∧
        s.expression 0 = .error ⟨dot', .columnName⟩ := by
  intro a dot a' dot'
  have hkinds : [a', dot'].map Token.kind = [a, dot].map Token.kind := rfl
  refine ⟨hkinds, _, _, rfl, rfl, rfl, ?_⟩
  obtain ⟨hexpression, -⟩ := (readTokens_relabelled 1 hkinds).2.2 _ _ rfl rfl 0
  rcases hexpression with ⟨_, hleft, -⟩ | ⟨i, cause, hleft, hright⟩
  · cases hleft
  · obtain ⟨htoken, rfl⟩ := SyntaxError.mk.inj (Except.error.inj hleft)
    have hi : ∀ i, dot = [a, dot].get i → i = 1 := by decide
    rw [hright, hi i htoken]
    rfl

end SqlScript

import SqlScript.Proofs.Grammar.Exact

/-!
# Tokens by their numbers

The grammar can read tokens with their indices for marks. What it finds then says which token stands
where, and becomes what is read from any tokens of these kinds (`readTokens_of_kinds`).
-/

namespace SqlScript

open Grammar

/-- Tokens for the grammar, each with its index as its mark. -/
def numbered (tokens : List Token) : Input (Fin tokens.length) :=
  List.ofFn fun i => (tokens[i].kind, i)

@[simp] theorem length_numbered (tokens : List Token) :
    (numbered tokens).length = tokens.length := List.length_ofFn

/-- The marks count up from `k`. -/
def Counted {n : Nat} (k : Nat) (I : Input (Fin n)) : Prop :=
  I.map (fun t => t.2.val) = List.range' k I.length

theorem counted_cons {n k : Nat} {kind : Kind} {m : Fin n} {I : Input (Fin n)} :
    Counted k ((kind, m) :: I) ↔ m.val = k ∧ Counted (k + 1) I := by
  simp [Counted, List.range'_succ]

theorem counted_append {n k : Nat} {I J : Input (Fin n)} :
    Counted k (I ++ J) ↔ Counted k I ∧ Counted (k + I.length) J := by
  induction I generalizing k with
  | nil => simp [Counted]
  | cons first I ih =>
    obtain ⟨kind, m⟩ := first
    rw [List.cons_append, counted_cons, counted_cons, ih, List.length_cons, and_assoc,
      Nat.add_right_comm, Nat.add_assoc]

theorem counted_numbered (tokens : List Token) : Counted 0 (numbered tokens) := by
  refine List.ext_getElem (by simp) fun i hi hi' => ?_
  simp [numbered]

variable {depth : Nat} {ts us : List Token}

/-- Numbers stand for the tokens of any list of the same kinds. -/
theorem remark_numbered_of_kinds (hlength : ts.length = us.length)
    (h : us.map Token.kind = ts.map Token.kind) :
    (numbered ts).remark (fun i => us.get (i.cast hlength)) = marked us := by
  refine List.ext_getElem (by simp [Input.remark, marked, hlength]) fun k hk hk' => ?_
  have hkind : us[k]?.map Token.kind = ts[k]?.map Token.kind := by
    rw [← List.getElem?_map, h, List.getElem?_map]
  have hts : k < ts.length := by simpa [Input.remark] using hk
  rw [List.getElem?_eq_getElem hts, List.getElem?_eq_getElem (hlength ▸ hts)] at hkind
  simpa [Input.remark, numbered, marked] using (Option.some.inj hkind).symm

theorem remark_numbered (ts : List Token) : (numbered ts).remark ts.get = marked ts :=
  remark_numbered_of_kinds rfl rfl

theorem readTokens_ok_iff_numbered {ss} :
    (readTokens depth ts).2 = .ok ss ↔ ∃ trees, ScriptPhrase (numbered ts) trees ∧
      Statement.needAll trees ≤ depth ∧ trees.map (.map (.map ts.get)) = ss := by
  rw [readTokens_ok_iff, ← remark_numbered, script_remark, Reading.map_ok]
  simp only [script_ok_iff, and_assoc]

theorem readTokens_ok_of_numbered {trees : List (Statement (Span (Fin ts.length)))}
    (hread : (script depth (numbered ts)).result = .ok trees) (hlength : ts.length = us.length)
    (h : us.map Token.kind = ts.map Token.kind) :
    (readTokens depth us).2 =
      .ok (trees.map (.map (.map fun i => us.get (i.cast hlength)))) := by
  rw [readTokens_ok_iff, ← remark_numbered_of_kinds hlength h, script_remark, Reading.map_ok]
  exact ⟨trees, hread, rfl⟩

theorem script_error_of_numbered {failure : Failure (Fin ts.length)}
    (hread : (script depth (numbered ts)).result = .error failure) (hlength : ts.length = us.length)
    (h : us.map Token.kind = ts.map Token.kind) :
    (script depth (marked us)).result =
      .error (failure.map fun i => us.get (i.cast hlength)) := by
  rw [← remark_numbered_of_kinds hlength h, script_remark, Reading.map, hread]
  rfl

theorem length_eq_of_kinds (h : us.map Token.kind = ts.map Token.kind) :
    ts.length = us.length := by
  simpa using (congrArg List.length h).symm

/-- A failure points at the same index of all lists of these kinds; past the end, at the last. -/
theorem readTokens_error_of_numbered {failure : Failure (Fin ts.length)}
    (hread : (script depth (numbered ts)).result = .error failure)
    (h : us.map Token.kind = ts.map Token.kind) :
    ∃ t, us[failure.mark.elim (ts.length - 1) Fin.val]? = some t ∧
      (readTokens depth us).2 = .error ⟨t, failure.cause⟩ := by
  have hlength := length_eq_of_kinds h
  obtain ⟨last, hlast, herror⟩ := readTokens_error (script_error_of_numbered hread hlength h)
  refine ⟨_, ?_, herror⟩
  obtain ⟨cause, mark⟩ := failure
  cases mark with
  | none => simpa [Failure.map, hlength, List.getLast?_eq_getElem?] using hlast
  | some i => simp [Failure.map]

/-- Lists of the same kinds are read alike: as the same tree with their own tokens, or with the same
failure at the same index. -/
theorem readTokens_of_kinds (depth : Nat) (hlength : ts.length = us.length)
    (h : us.map Token.kind = ts.map Token.kind) :
    (∃ trees : List (Statement (Span (Fin ts.length))),
      (readTokens depth ts).2 = .ok (trees.map (.map (.map ts.get))) ∧
      (readTokens depth us).2 = .ok (trees.map (.map (.map fun i => us.get (i.cast hlength))))) ∨
    ∃ (i : Nat) (t u : Token) (cause : Cause), ts[i]? = some t ∧ us[i]? = some u ∧
      (readTokens depth ts).2 = .error ⟨t, cause⟩ ∧
      (readTokens depth us).2 = .error ⟨u, cause⟩ := by
  cases hread : (script depth (numbered ts)).result with
  | ok trees =>
    exact .inl ⟨trees, readTokens_ok_of_numbered hread rfl rfl,
      readTokens_ok_of_numbered hread hlength h⟩
  | error failure =>
    obtain ⟨t, ht, hts⟩ := readTokens_error_of_numbered hread rfl
    obtain ⟨u, hu, hus⟩ := readTokens_error_of_numbered hread h
    exact .inr ⟨_, t, u, failure.cause, ht, hu, hts, hus⟩

end SqlScript

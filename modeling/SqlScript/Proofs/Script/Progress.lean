import SqlScript.Proofs.Grammar.Clauses
import SqlScript.Proofs.Grammar.Walking
import SqlScript.Proofs.Script.Reuse

/-!
# Every routine gets further

A routine of the grammar that matches at an index ends further on, within the tokens, and the
clauses end nowhere before where they began (`Reader.routines_advance`). That is enough for reading
that adds to an index and loops until nothing is found: it never needs an index that there is not,
and no loop or operand begins where the one before did.
-/

namespace SqlScript

variable {α : Type}

namespace Routine

/-- The routine as a program on indices, inside of so many operands. -/
def walk (r : Reader) (depth : Nat) : {α : Type} → Routine Token α → Walking (Option α)
  | _, operator => Walking.operator r
  | _, literal => Walking.literal r
  | _, column => Walking.columnRef r
  | _, call => Walking.call r (Walking.operand r depth)
  | _, negation => Walking.negation r (Walking.operand r depth)
  | _, operand => Walking.operand r depth
  | _, expression => Walking.expression r depth
  | _, table => Walking.tableRef r
  | _, list kind item => (item.walk r depth).commaList r kind
  | _, fromClause => Walking.fromClause r
  | _, whereClause => Walking.whereClause r depth
  | _, orderClause => Walking.orderClause r
  | _, useStatement => Walking.useStatement r
  | _, selectStatement => Walking.selectStatement r depth
  | _, insertStatement => Walking.insertStatement r depth
  | _, deleteStatement => Walking.deleteStatement r depth
  | _, statement => Walking.statement r depth

open Walking in
theorem matches_walk (routine : Routine Token α) {r : Reader} {b depth : Nat} :
    Matches r b (routine.walk r depth) (routine.rule (r.maxDepth - depth)) := by
  induction routine with
  | operator => exact .operator
  | literal => exact .literal
  | column => exact .columnRef
  | call => exact Matches.operand.call.mono (Nat.le_succ b)
  | negation => exact Matches.operand.negation.mono (Nat.le_succ b)
  | operand => exact .operand
  | expression => exact .expression
  | table => exact .tableRef
  | list kind item ih => exact ih.commaList
  | fromClause => exact .fromClause
  | whereClause => exact .whereClause
  | orderClause => exact .orderClause
  | useStatement => exact .useStatement
  | selectStatement => exact .selectStatement
  | insertStatement => exact .insertStatement
  | deleteStatement => exact .deleteStatement
  | statement => exact .statement

end Routine

namespace Reader

/-- Walks through a routine from an index, inside of so many operands. On a match gives the index
behind it. -/
def walkAt (r : Reader) (routine : Routine Token α) (depth index : Nat) :
    Except Halt (Option (Nat × α)) :=
  match routine.walk r depth index with
  | .ok (found, next) => .ok (found.map (next, ·))
  | .error halt => .error halt

variable (r : Reader)

theorem walkAt_eq (hlength : r.tokens.length < UInt64.size) (routine : Routine Token α)
    (depth : Nat) {index : Nat} (hindex : index < UInt64.size) :
    r.walkAt routine depth index =
      (r.readAt (routine.rule (r.maxDepth - depth)) index).mapError .failed := by
  have hmatches : Walking.Matches r (r.left index + 1) (routine.walk r depth)
      (routine.rule (r.maxDepth - depth)) := routine.matches_walk
  have hfinds := hmatches hlength index hindex (Nat.lt_succ_self _)
  rw [walkAt, readAt]
  generalize (routine.rule (r.maxDepth - depth)).read (r.input.drop index) = read,
    routine.walk r depth index = run at hfinds ⊢
  cases hfinds with
  | absent => rfl
  | malformed failure => rfl
  | matched hlt hle =>
    simp only [sub_length_drop_input hle]
    rfl

/-- Where there is a token, a statement is what is read there, or what is expected. -/
theorem dispatch_readAt (hlength : r.tokens.length < UInt64.size) (depth : Nat) {index : Nat}
    (hindex : index < r.tokens.length) :
    Walking.dispatch r depth index =
      match r.readAt (Grammar.statement (r.maxDepth - depth)) index with
      | .ok (some (next, draft)) => .ok (draft, next)
      | .ok none => .error (.failed ⟨r.tokenAt index, .statement⟩)
      | .error e => .error (.failed e) := by
  have hmatches : Walking.Matches r (r.left index + 1) (Walking.statement r depth)
      (Grammar.statement (r.maxDepth - depth)) := .statement
  have hfinds := hmatches hlength index (Nat.lt_trans hindex hlength) (Nat.lt_succ_self _)
  rw [Walking.dispatch_eq hlength depth hindex, readAt]
  simp only [Walking.require, Walking.requireOr, Walking.run_bind, Walking.run_get]
  generalize (Grammar.statement (r.maxDepth - depth)).read (r.input.drop index) = read,
    Walking.statement r depth index = run at hfinds ⊢
  cases hfinds with
  | absent => rfl
  | malformed failure => rfl
  | matched hlt hle =>
    simp only [sub_length_drop_input hle]
    rfl

/-- What the clauses leave begins at an index. -/
theorem clauses_advance {depth start : Nat} {clauses rest} (hstart : start ≤ r.tokens.length)
    (h : (Grammar.clauses depth).read (r.input.drop start) = .ok (clauses, rest)) :
    ∃ next, rest = r.input.drop next ∧ start ≤ next ∧ next ≤ r.tokens.length := by
  obtain ⟨used, hused, -⟩ := Grammar.clauses_sound h
  have hsuffix : rest <:+ r.input :=
    (hused ▸ List.suffix_append used rest).trans (List.drop_suffix start r.input)
  have hlength := congrArg List.length hused
  rw [List.length_drop, List.length_append, length_input] at hlength
  refine ⟨r.tokens.length - rest.length, ?_, by omega, Nat.sub_le _ _⟩
  rw [← length_input]
  exact List.suffix_iff_eq_drop.mp hsuffix

end Reader

end SqlScript

import SqlScript.Proofs.Grammar.Laws
import SqlScript.Reader

/-!
# Reading at an index

A rule is tried on what is left of the tokens from an index on, and a match is told by the index
behind it. That index lies behind the one where the rule was tried, and not behind the end
(`Reader.readAt_advances`).
-/

namespace SqlScript

namespace Reader

variable {α : Type} {r : Reader} {rule : Rule Token α} {index next : Nat} {x : α}

/-- The token with an index. Past the end that is the last one. -/
def tokenAt (r : Reader) (index : Nat) : Token := (r.tokens[index]?).getD r.last

@[simp] theorem length_input (r : Reader) : r.input.length = r.tokens.length := List.length_map _

/-- An index, from the number of tokens behind it. -/
theorem sub_length_drop_input (h : next ≤ r.tokens.length) :
    r.tokens.length - (r.input.drop next).length = next := by
  rw [List.length_drop, length_input]
  omega

theorem drop_input_of_none (h : r.tokens[index]? = none) : r.input.drop index = [] := by
  rw [List.drop_eq_nil_iff, length_input]
  exact List.getElem?_eq_none_iff.mp h

theorem drop_input_of_some {t : Token} (h : r.tokens[index]? = some t) :
    r.input.drop index = (t.kind, t) :: r.input.drop (index + 1) := by
  obtain ⟨hlt, rfl⟩ := List.getElem?_eq_some_iff.mp h
  rw [List.drop_eq_getElem_cons (by rwa [length_input])]
  simp [input]

theorem readAt_eq_none : r.readAt rule index = .ok none ↔
    rule.read (r.input.drop index) = .absent := by
  rw [readAt]
  cases rule.read (r.input.drop index) <;> simp

theorem readAt_eq_error {e : SyntaxError} : r.readAt rule index = .error e ↔
    ∃ failure, rule.read (r.input.drop index) = .malformed failure ∧ r.resolve failure = e := by
  rw [readAt]
  cases rule.read (r.input.drop index) <;> simp

/-- A rule that takes tokens off the front has read them up to the index that is told. -/
theorem readAt_eq_some
    (hrule : ∀ {I x rest}, rule.read I = .matched x rest → rest <:+ I) :
    r.readAt rule index = .ok (some (next, x)) ↔
      rule.read (r.input.drop index) = .matched x (r.input.drop next) ∧
        next ≤ r.tokens.length := by
  rw [readAt]
  constructor
  · intro h
    split at h
    · cases h
    · next value rest hread =>
      cases h
      have hsuffix := (hrule hread).trans (List.drop_suffix index r.input)
      rw [hread, ← length_input, ← List.suffix_iff_eq_drop.mp hsuffix]
      exact ⟨rfl, Nat.sub_le _ _⟩
    · cases h
  · rintro ⟨hread, hle⟩
    rw [hread]
    simp only [sub_length_drop_input hle]

theorem readAt_advances (h : r.readAt rule index = .ok (some (next, x))) :
    index < next ∧ next ≤ r.tokens.length := by
  rw [readAt] at h
  split at h
  · cases h
  · next value rest hread =>
    cases h
    have hshorter := rule.shrinks hread
    rw [List.length_drop, length_input] at hshorter
    omega
  · cases h

/-- A failure at what is left from an index on shows the token there. -/
theorem resolve_atFront (r : Reader) (cause : Cause) (index : Nat) :
    r.resolve (.atFront cause (r.input.drop index)) = ⟨r.tokenAt index, cause⟩ := by
  simp [resolve, Failure.atFront, tokenAt, input, List.head?_drop, Function.comp_def]

end Reader

end SqlScript

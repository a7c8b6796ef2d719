import SqlScript.Grammar.Yard
import SqlScript.Proofs.Expression.Arrangement

/-!
# What the yard arranges

A yard stands for the arrangements that wait, each with the operator that took it for its left
part, and for the operand that came last. `Yard.Holds` ties the two together; `Yard.Holds.shift`
says that an operator which comes in joins what has been decided and keeps the rest. In the end the
yard has written the nested arrangement of the whole chain in postfix order.
-/

namespace SqlScript

/-- Arrangements that wait for a right part, each with its operator, the latest first. -/
abbrev Pending (α : Type) := List (Arrangement α × Spanned α Operator)

namespace Pending

variable {α : Type}

/-- The items that were read, without the operand that came last. -/
def inorder : Pending α → List (Item α)
  | [] => []
  | (t, o) :: pending => inorder pending ++ (t.inorder ++ [.operator o])

/-- The items that were written, without the operand that came last. -/
def postorder : Pending α → List (Item α)
  | [] => []
  | (t, _) :: pending => postorder pending ++ t.postorder

/-- Joins everything that waits, with `last` as the rightmost part. -/
def collapse : Pending α → Arrangement α → Arrangement α
  | [], last => last
  | (t, o) :: pending, last => collapse pending (.node t o last)

/-- Every operator binds at most as tightly as its left part, and more tightly than the operators
that came before it and still wait. -/
structure Ordered (pending : Pending α) : Prop where
  nested : ∀ p ∈ pending, p.1.Nested ∧ ∀ q ∈ p.1.root?, p.2.node.precedence ≤ q
  ascending : pending.Pairwise fun p q => q.2.node.precedence < p.2.node.precedence

theorem inorder_append (s t : Pending α) : inorder (s ++ t) = inorder t ++ inorder s := by
  induction s with
  | nil => simp [inorder]
  | cons p s ih => simp [inorder, ih]

theorem postorder_append (s t : Pending α) : postorder (s ++ t) = postorder t ++ postorder s := by
  induction s with
  | nil => simp [postorder]
  | cons p s ih => simp [postorder, ih]

theorem inorder_collapse (pending : Pending α) (last : Arrangement α) :
    (collapse pending last).inorder = inorder pending ++ last.inorder := by
  induction pending generalizing last with
  | nil => rfl
  | cons p pending ih => simp [collapse, inorder, ih, Arrangement.inorder]

theorem postorder_collapse (pending : Pending α) (last : Arrangement α) :
    (collapse pending last).postorder =
      postorder pending ++ last.postorder ++ pending.map fun p => .operator p.2 := by
  induction pending generalizing last with
  | nil => simp [collapse, postorder]
  | cons p pending ih => simp [collapse, postorder, ih, Arrangement.postorder]

theorem mem_root?_collapse {pending : Pending α} {last : Arrangement α} {q : Nat}
    (h : q ∈ (collapse pending last).root?) :
    q ∈ last.root? ∨ ∃ p ∈ pending, p.2.node.precedence = q := by
  induction pending generalizing last with
  | nil => exact .inl h
  | cons p pending ih =>
    rcases ih h with hq | ⟨p', hp', hq⟩
    · exact .inr ⟨p, by simp, by simpa [Arrangement.root?] using hq⟩
    · exact .inr ⟨p', by simp [hp'], hq⟩

theorem Ordered.collapse_nested {pending : Pending α} (h : Ordered pending) {last : Arrangement α}
    (hlast : last.Nested) (hroot : ∀ q ∈ last.root?, ∀ p ∈ pending, p.2.node.precedence < q) :
    (collapse pending last).Nested := by
  induction pending generalizing last with
  | nil => exact hlast
  | cons p pending ih =>
    obtain ⟨hp, hnested⟩ := List.forall_mem_cons.mp h.nested
    obtain ⟨hbelow, hascending⟩ := List.pairwise_cons.mp h.ascending
    refine ih ⟨hnested, hascending⟩ ⟨hp.1, hlast, hp.2, fun q hq => hroot q hq p (by simp)⟩ ?_
    intro q hq p' hp'
    cases hq
    exact hbelow p' hp'

/-- What is left behind the operators that bind at least as tightly as `k` binds more loosely. -/
theorem Ordered.lt_of_mem_dropWhile {pending : Pending α} (h : Ordered pending) {k : Nat}
    {p : Arrangement α × Spanned α Operator}
    (hp : p ∈ pending.dropWhile fun p => decide (k ≤ p.2.node.precedence)) :
    p.2.node.precedence < k := by
  induction pending with
  | nil => simp at hp
  | cons first pending ih =>
    obtain ⟨-, hnested⟩ := List.forall_mem_cons.mp h.nested
    obtain ⟨hbelow, hascending⟩ := List.pairwise_cons.mp h.ascending
    by_cases hk : k ≤ first.2.node.precedence
    · rw [List.dropWhile_cons_of_pos (by simpa using hk)] at hp
      exact ih ⟨hnested, hascending⟩ hp
    · rw [List.dropWhile_cons_of_neg (by simpa using hk)] at hp
      rcases List.mem_cons.mp hp with rfl | hp
      · omega
      · have := hbelow p hp
        omega

theorem Ordered.of_append {s t : Pending α} (h : Ordered (s ++ t)) : Ordered s ∧ Ordered t := by
  obtain ⟨hs, ht, -⟩ := List.pairwise_append.mp h.ascending
  exact ⟨⟨fun p hp => h.nested p (by simp [hp]), hs⟩, ⟨fun p hp => h.nested p (by simp [hp]), ht⟩⟩

end Pending

namespace Yard

variable {α : Type}

/-- The yard has read what is pending, and `last` behind it. -/
structure Holds (y : Yard α) (pending : Pending α) (last : Operand α) : Prop where
  output : y.output.toList = pending.postorder ++ [.operand last]
  waiting : y.waiting = pending.map Prod.snd
  ordered : pending.Ordered

theorem holds_start (x : Operand α) : (start x).Holds [] x :=
  ⟨rfl, rfl, ⟨by simp, .nil⟩⟩

/-- The operators that an incoming one sends out are those pending ones that bind at least as
tightly. What they join becomes the left part of the incoming one. -/
theorem Holds.shift {y : Yard α} {pending : Pending α} {last : Operand α}
    (h : y.Holds pending last) (o : Spanned α Operator) (x : Operand α) :
    ∃ pending', (y.shift (o, x)).Holds pending' x ∧
      pending'.inorder = pending.inorder ++ [.operand last, .operator o] := by
  -- the pending ones ascend, so those that the incoming operator sends out are a prefix
  let tighter := fun p : Arrangement α × Spanned α Operator =>
    decide (o.node.precedence ≤ p.2.node.precedence)
  let ready := pending.takeWhile tighter
  let rest := pending.dropWhile tighter
  have hsplit : ready ++ rest = pending := List.takeWhile_append_dropWhile
  obtain ⟨hready, hrest⟩ := Pending.Ordered.of_append (hsplit.symm ▸ h.ordered)
  have htight : ∀ p ∈ ready, o.node.precedence ≤ p.2.node.precedence := fun p hp => by
    simpa [tighter] using List.all_eq_true.mp List.all_takeWhile p hp
  have hloose : ∀ p ∈ rest, p.2.node.precedence < o.node.precedence := fun p hp =>
    h.ordered.lt_of_mem_dropWhile hp
  -- all that binds tightly enough becomes one part, and the incoming operator waits with it
  let joined := Pending.collapse ready (.leaf last)
  have hjoined : joined.Nested := hready.collapse_nested trivial (by simp [Arrangement.root?])
  have hroot : ∀ q ∈ joined.root?, o.node.precedence ≤ q := fun q hq => by
    rcases Pending.mem_root?_collapse hq with hq | ⟨p, hp, rfl⟩
    · simp [Arrangement.root?] at hq
    · exact htight p hp
  refine ⟨(joined, o) :: rest, ⟨?_, ?_, ?_⟩, ?_⟩
  · have hsent : (y.waiting.takeWhile fun w => decide (o.node.precedence ≤ w.node.precedence)) =
        ready.map Prod.snd := by
      rw [h.waiting, List.takeWhile_map]
      rfl
    have hwritten : pending.postorder = Pending.postorder rest ++ Pending.postorder ready := by
      rw [← Pending.postorder_append, hsplit]
    simp [Yard.shift, h.output, hsent, hwritten, Pending.postorder, joined,
      Pending.postorder_collapse, Arrangement.postorder]
  · have hkept : (y.waiting.dropWhile fun w => decide (o.node.precedence ≤ w.node.precedence)) =
        rest.map Prod.snd := by
      rw [h.waiting, List.dropWhile_map]
      rfl
    simp only [Yard.shift, hkept, List.map_cons]
  · exact ⟨List.forall_mem_cons.mpr ⟨⟨hjoined, hroot⟩, hrest.nested⟩,
      List.pairwise_cons.mpr ⟨hloose, hrest.ascending⟩⟩
  · have hread : pending.inorder = Pending.inorder rest ++ Pending.inorder ready := by
      rw [← Pending.inorder_append, hsplit]
    simp [Pending.inorder, joined, Pending.inorder_collapse, Arrangement.inorder, hread]

/-- The whole chain, one link after another. -/
theorem Holds.foldl_shift {y : Yard α} {pending : Pending α} {last : Operand α}
    (h : y.Holds pending last) (links : List (Spanned α Operator × Operand α)) :
    ∃ pending' last', (links.foldl Yard.shift y).Holds pending' last' ∧
      pending'.inorder ++ [.operand last'] = pending.inorder ++ chainItems last links := by
  induction links generalizing y pending last with
  | nil => exact ⟨pending, last, h, rfl⟩
  | cons link links ih =>
    obtain ⟨o, x⟩ := link
    obtain ⟨pending', h', hitems⟩ := h.shift o x
    obtain ⟨pending'', last', h'', hall⟩ := ih h'
    refine ⟨pending'', last', h'', ?_⟩
    rw [hall, hitems]
    simp [chainItems]

/-- What the yard has written in the end is the nested arrangement of the chain. -/
theorem postfixed_eq_postorder (first : Operand α)
    (links : List (Spanned α Operator × Operand α)) :
    ∃ t : Arrangement α, t.Nested ∧ t.inorder = chainItems first links ∧
      postfixed first links = t.postorder := by
  obtain ⟨pending, last, h, hitems⟩ := (holds_start first).foldl_shift links
  refine ⟨pending.collapse (.leaf last), h.ordered.collapse_nested trivial
    (by simp [Arrangement.root?]), ?_, ?_⟩
  · simpa [Pending.inorder_collapse, Arrangement.inorder, Pending.inorder] using hitems
  · simp [postfixed, finish, h.output, h.waiting, Pending.postorder_collapse,
      Arrangement.postorder]

end Yard

end SqlScript

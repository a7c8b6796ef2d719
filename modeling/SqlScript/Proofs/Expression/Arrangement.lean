import SqlScript.Tree.Basic

/-!
# How operators bind their operands

A chain of operands with operators between them can be arranged into a binary tree in many ways.
`Nested` singles out the arrangement that precedence asks for: of two operators the tighter one is
deeper, and of two equal ones the earlier one. A chain has at most one such arrangement
(`Nested.unique`), and `stratify` builds it level by level, the tightest operators first.

`run` is the machine that postfix order is written for. It gives back the arrangement whose items
it is fed in postfix order (`run_postorder`).
-/

namespace SqlScript

/-- The items of a chain, from left to right. -/
def chainItems {α : Type} (first : Operand α) (links : List (Spanned α Operator × Operand α)) :
    List (Item α) :=
  .operand first :: links.flatMap fun (operator, operand) => [.operator operator, .operand operand]

theorem forall_mem_chainItems {α : Type} {first : Operand α}
    {links : List (Spanned α Operator × Operand α)} {P : Item α → Prop} :
    (∀ i ∈ chainItems first links, P i) ↔
      P (.operand first) ∧ ∀ l ∈ links, P (.operator l.1) ∧ P (.operand l.2) := by
  induction links generalizing first with
  | nil => simp [chainItems]
  | cons link links ih =>
    have hcons : chainItems first (link :: links) =
        .operand first :: .operator link.1 :: chainItems link.2 links := rfl
    rw [hcons, List.forall_mem_cons, List.forall_mem_cons, ih, List.forall_mem_cons, and_assoc]

/-- A chain with every operator between the two parts that it joins. -/
inductive Arrangement (α : Type)
  | leaf (operand : Operand α)
  | node (left : Arrangement α) (operator : Spanned α Operator) (right : Arrangement α)

namespace Arrangement

variable {α : Type}

/-- The precedence of the operator at the root, if there is one. -/
def root? : Arrangement α → Option Nat
  | leaf _ => none
  | node _ operator _ => some operator.node.precedence

/-- The items from left to right. -/
def inorder : Arrangement α → List (Item α)
  | leaf x => [.operand x]
  | node l o r => l.inorder ++ .operator o :: r.inorder

/-- The items in postfix order. -/
def postorder : Arrangement α → List (Item α)
  | leaf x => [.operand x]
  | node l o r => l.postorder ++ r.postorder ++ [.operator o]

/-- Tighter operators are deeper, and so are the earlier ones of equal precedence. -/
def Nested : Arrangement α → Prop
  | leaf _ => True
  | node l o r => l.Nested ∧ r.Nested ∧
      (∀ p ∈ l.root?, o.node.precedence ≤ p) ∧ (∀ p ∈ r.root?, o.node.precedence < p)

theorem postorder_perm (t : Arrangement α) : t.postorder.Perm t.inorder := by
  induction t with
  | leaf x => exact .refl _
  | node l o r ihl ihr =>
    rw [postorder, inorder, List.append_assoc]
    exact ihl.append ((List.perm_append_singleton _ _).trans (ihr.cons _))

theorem mem_postorder_iff {t : Arrangement α} {i : Item α} :
    i ∈ t.postorder ↔ i ∈ t.inorder := t.postorder_perm.mem_iff

theorem inorder_ne_nil (t : Arrangement α) : t.inorder ≠ [] := by
  cases t <;> simp [inorder]

theorem inorder_node_ne_singleton {l r : Arrangement α} {o : Spanned α Operator} {i : Item α} :
    (node l o r).inorder ≠ [i] := by
  intro h
  have hlen := congrArg List.length h
  have hpos := List.length_pos_iff.mpr l.inorder_ne_nil
  simp only [inorder, List.length_append, List.length_cons, List.length_nil] at hlen
  omega

/-! ## The machine -/

/-- Runs items in postfix order on a stack of arrangements. An operator joins the two on top; it
fails if there are fewer. -/
def run : List (Item α) → List (Arrangement α) → Option (List (Arrangement α))
  | [], stack => some stack
  | .operand x :: items, stack => run items (leaf x :: stack)
  | .operator o :: items, r :: l :: stack => run items (node l o r :: stack)
  | .operator _ :: _, _ => none

/-- An arrangement in postfix order comes back on top of whatever was there. -/
theorem run_postorder (t : Arrangement α) (items : List (Item α)) (stack : List (Arrangement α)) :
    run (t.postorder ++ items) stack = run items (t :: stack) := by
  induction t generalizing items stack with
  | leaf x => rfl
  | node l o r ihl ihr =>
    simp only [postorder, List.append_assoc, ihl, ihr]
    rfl

/-! ## At most one nested arrangement -/

/-- No operator of a nested arrangement binds more loosely than its root. -/
theorem Nested.le_precedence {t : Arrangement α} (h : t.Nested) {p : Nat}
    (hp : ∀ q ∈ t.root?, p ≤ q) {o : Spanned α Operator} (ho : Item.operator o ∈ t.inorder) :
    p ≤ o.node.precedence := by
  induction t generalizing p with
  | leaf x => simp [inorder] at ho
  | node l w r ihl ihr =>
    obtain ⟨hl, hr, hlw, hrw⟩ := h
    have hpw : p ≤ w.node.precedence := hp _ rfl
    simp only [inorder, List.mem_append, List.mem_cons, Item.operator.injEq] at ho
    rcases ho with ho | rfl | ho
    · exact ihl hl (fun q hq => Nat.le_trans hpw (hlw q hq)) ho
    · exact hpw
    · exact ihr hr (fun q hq => Nat.le_of_lt (Nat.lt_of_le_of_lt hpw (hrw q hq))) ho

/-- Two nested arrangements of one chain do not have different roots: the root that stands further
to the right would bind more loosely than the other one, and at least as tightly. -/
theorem Nested.not_root_before {l r l' r' : Arrangement α} {o o' : Spanned α Operator}
    {between : List (Item α)} (h : (node l o r).Nested) (h' : (node l' o' r').Nested)
    (hr : r.inorder = between ++ .operator o' :: r'.inorder)
    (hl : l'.inorder = l.inorder ++ .operator o :: between) : False := by
  obtain ⟨-, hnr, -, hor⟩ := h
  obtain ⟨hnl, -, hol, -⟩ := h'
  have hlt : o.node.precedence + 1 ≤ o'.node.precedence :=
    hnr.le_precedence hor (by simp [hr])
  have hle : o'.node.precedence ≤ o.node.precedence :=
    hnl.le_precedence hol (by simp [hl])
  omega

theorem Nested.unique {t u : Arrangement α} (ht : t.Nested) (hu : u.Nested)
    (h : t.inorder = u.inorder) : t = u := by
  induction t generalizing u with
  | leaf x =>
    cases u with
    | leaf y =>
      simp only [inorder, List.cons.injEq, Item.operand.injEq, and_true] at h
      rw [h]
    | node l o r => exact (inorder_node_ne_singleton h.symm).elim
  | node l o r ihl ihr =>
    cases u with
    | leaf y => exact (inorder_node_ne_singleton h).elim
    | node l' o' r' =>
      -- the two root operators stand at one place of the chain, or one stands before the other
      simp only [inorder] at h
      rcases List.append_eq_append_iff.mp h with ⟨m, hl, hr⟩ | ⟨m, hl, hr⟩
      · cases m with
        | nil =>
          simp only [List.nil_append, List.cons.injEq, Item.operator.injEq] at hr
          obtain ⟨rfl, hr⟩ := hr
          rw [ihl ht.1 hu.1 (by simpa using hl.symm), ihr ht.2.1 hu.2.1 hr]
        | cons i m =>
          simp only [List.cons_append, List.cons.injEq] at hr
          obtain ⟨rfl, hr⟩ := hr
          exact (not_root_before ht hu hr hl).elim
      · cases m with
        | nil =>
          simp only [List.nil_append, List.cons.injEq, Item.operator.injEq] at hr
          obtain ⟨rfl, hr⟩ := hr
          rw [ihl ht.1 hu.1 (by simpa using hl), ihr ht.2.1 hu.2.1 hr.symm]
        | cons i m =>
          simp only [List.cons_append, List.cons.injEq] at hr
          obtain ⟨rfl, hr⟩ := hr
          exact (not_root_before hu ht hr hl).elim

/-! ## The arrangement, level by level -/

/-- The precedences of the operators, the tightest first. -/
def levels : List Nat := [14, 13, 11, 10, 6, 5, 0]

/-- Joins the parts of a chain at its operators of precedence `p`, from left to right. -/
def joinLevel (p : Nat) : Arrangement α → List (Spanned α Operator × Arrangement α) →
    Arrangement α × List (Spanned α Operator × Arrangement α)
  | first, [] => (first, [])
  | first, (o, next) :: links =>
    if o.node.precedence = p then joinLevel p (node first o next) links
    else
      let (second, rest) := joinLevel p next links
      (first, (o, second) :: rest)

/-- Joins a chain at one level after another; the first part is the whole chain in the end. -/
def joinLevels : List Nat → Arrangement α → List (Spanned α Operator × Arrangement α) →
    Arrangement α × List (Spanned α Operator × Arrangement α)
  | [], first, links => (first, links)
  | p :: levels, first, links =>
    let (second, rest) := joinLevel p first links
    joinLevels levels second rest

/-- What a grammar with one left-associative rule for each precedence makes of a chain. -/
def stratify (first : Operand α) (links : List (Spanned α Operator × Operand α)) : Arrangement α :=
  (joinLevels levels (leaf first) (links.map fun (o, x) => (o, leaf x))).1

/-- The items of a chain whose parts are arranged already. -/
def partItems (first : Arrangement α) (links : List (Spanned α Operator × Arrangement α)) :
    List (Item α) :=
  first.inorder ++ links.flatMap fun (o, t) => .operator o :: t.inorder

theorem partItems_joinLevel (p : Nat) (first : Arrangement α)
    (links : List (Spanned α Operator × Arrangement α)) :
    partItems (joinLevel p first links).1 (joinLevel p first links).2 = partItems first links := by
  induction links generalizing first with
  | nil => rfl
  | cons link links ih =>
    obtain ⟨o, next⟩ := link
    rw [joinLevel]
    split
    · rw [ih]
      simp [partItems, inorder]
    · have := ih next
      simp only [partItems, List.flatMap_cons] at this ⊢
      simp [this]

theorem partItems_joinLevels (levels : List Nat) (first : Arrangement α)
    (links : List (Spanned α Operator × Arrangement α)) :
    partItems (joinLevels levels first links).1 (joinLevels levels first links).2 =
      partItems first links := by
  induction levels generalizing first links with
  | nil => rfl
  | cons p levels ih => rw [joinLevels, ih, partItems_joinLevel]

/-- A nested part that no operator of a precedence in `levels` or below has joined yet. -/
def Settled (levels : List Nat) (t : Arrangement α) : Prop :=
  t.Nested ∧ ∀ p ∈ levels, ∀ q ∈ t.root?, p < q

/-- One level joins at all operators of its precedence, and what it joins is nested. -/
theorem joinLevel_settled {p : Nat} {levels : List Nat} (hlow : ∀ q ∈ levels, q < p)
    (links : List (Spanned α Operator × Arrangement α)) {first : Arrangement α}
    (hfirst : first.Nested) (hroot : ∀ q ∈ first.root?, p ≤ q)
    (hlinks : ∀ l ∈ links, l.1.node.precedence ∈ p :: levels ∧ Settled (p :: levels) l.2) :
    Settled levels (joinLevel p first links).1 ∧
      ∀ l ∈ (joinLevel p first links).2, l.1.node.precedence ∈ levels ∧ Settled levels l.2 := by
  induction links generalizing first with
  | nil =>
    refine ⟨⟨hfirst, fun q hq r hr => ?_⟩, by simp [joinLevel]⟩
    exact Nat.lt_of_lt_of_le (hlow q hq) (hroot r hr)
  | cons link links ih =>
    obtain ⟨o, next⟩ := link
    obtain ⟨ho, hnext⟩ := hlinks (o, next) (by simp)
    have hmore := fun l hl => hlinks l (List.mem_cons_of_mem _ hl)
    have habove := hnext.2 p (by simp)
    rw [joinLevel]
    split
    -- joined at this level: the part grows, and its root is of precedence `p` from then on
    · next hp =>
      refine ih ⟨hfirst, hnext.1, fun q hq => hp ▸ hroot q hq, fun q hq => hp ▸ habove q hq⟩ ?_
        hmore
      intro q hq
      cases hq
      exact Nat.le_of_eq hp.symm
    · next hp =>
      obtain ⟨hsecond, hrest⟩ := ih hnext.1 (fun q hq => Nat.le_of_lt (habove q hq)) hmore
      refine ⟨⟨hfirst, fun q hq r hr => Nat.lt_of_lt_of_le (hlow q hq) (hroot r hr)⟩, ?_⟩
      intro l hl
      rcases List.mem_cons.mp hl with rfl | hl
      · exact ⟨(List.mem_cons.mp ho).resolve_left hp, hsecond⟩
      · exact hrest l hl

theorem joinLevels_settled {levels : List Nat} (hdesc : levels.Pairwise (· > ·))
    {first : Arrangement α} {links : List (Spanned α Operator × Arrangement α)}
    (hfirst : Settled levels first)
    (hlinks : ∀ l ∈ links, l.1.node.precedence ∈ levels ∧ Settled levels l.2) :
    (joinLevels levels first links).1.Nested ∧ (joinLevels levels first links).2 = [] := by
  induction levels generalizing first links with
  | nil =>
    refine ⟨hfirst.1, List.eq_nil_iff_forall_not_mem.mpr fun l hl => ?_⟩
    exact List.not_mem_nil (hlinks l hl).1
  | cons p levels ih =>
    obtain ⟨hlow, hdesc⟩ := List.pairwise_cons.mp hdesc
    obtain ⟨hsecond, hrest⟩ := joinLevel_settled hlow links hfirst.1
      (fun q hq => Nat.le_of_lt (hfirst.2 p (by simp) q hq)) hlinks
    exact ih hdesc hsecond hrest

theorem precedence_mem_levels (o : Operator) : o.precedence ∈ levels := by
  cases o <;> decide

/-- Joining all levels of a chain gives a nested arrangement of it. -/
theorem stratify_nested (first : Operand α) (links : List (Spanned α Operator × Operand α)) :
    (stratify first links).Nested ∧ (stratify first links).inorder = chainItems first links := by
  have hsettled : ∀ x : Operand α, Settled levels (leaf x) := fun x =>
    ⟨trivial, by simp [root?]⟩
  have hparts : ∀ l ∈ links.map fun (o, x) => (o, leaf x),
      l.1.node.precedence ∈ levels ∧ Settled levels l.2 := fun l hl => by
    obtain ⟨⟨o, x⟩, -, rfl⟩ := List.mem_map.mp hl
    exact ⟨precedence_mem_levels o.node, hsettled x⟩
  obtain ⟨hnested, hrest⟩ := joinLevels_settled (by decide : levels.Pairwise (· > ·))
    (hsettled first) hparts
  refine ⟨hnested, ?_⟩
  have hitems := partItems_joinLevels levels (leaf first) (links.map fun (o, x) => (o, leaf x))
  rw [hrest] at hitems
  simpa [partItems, chainItems, inorder, stratify, List.flatMap_map] using hitems

end Arrangement

end SqlScript

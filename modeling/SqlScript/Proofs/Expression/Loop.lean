import Mathlib.Data.List.Perm.Subperm
import SqlScript.Proofs.Expression.Order
import SqlScript.Proofs.Grammar.Indices
import SqlScript.Proofs.Grammar.Proper

/-!
# The yard while an expression is read

Reading an expression takes an operator and an operand at a time. `Reader.Turn` says where it has
got to before each of these turns, and the yard it holds there, whether the expression will be
finished or turns out to be broken. In every turn the waiting operators ascend, and the output is
short of exactly those operators (`Yard.Balanced`). What the expression comes to is what its last
turn says (`Reader.expression_balanced`).
-/

namespace SqlScript

variable {α σ : Type}

/-! ## Operands and operators -/

def Item.isOperand : Item α → Bool
  | .operand _ => true
  | .operator _ => false

def operands (items : List (Item α)) : Nat := items.countP Item.isOperand

def operators (items : List (Item α)) : Nat := items.countP fun i => !i.isOperand

section Counts

variable (items items' : List (Item α))

@[simp] theorem operands_append : operands (items ++ items') = operands items + operands items' :=
  List.countP_append

@[simp] theorem operators_append :
    operators (items ++ items') = operators items + operators items' := List.countP_append

@[simp] theorem operands_operand (x : Operand α) : operands [.operand x] = 1 := rfl

@[simp] theorem operators_operand (x : Operand α) : operators [.operand x] = 0 := rfl

@[simp] theorem operands_operators (sent : List (Spanned α Operator)) :
    operands (sent.map Item.operator) = 0 := by
  simp [operands, Item.isOperand]

@[simp] theorem operators_operators (sent : List (Spanned α Operator)) :
    operators (sent.map Item.operator) = sent.length := by
  simp [operators, Item.isOperand, List.countP_map, Function.comp_def]

end Counts

/-- From the first item on there are always more operands than operators. -/
def Ahead (items : List (Item α)) : Prop := ∀ p, p <+: items → p ≠ [] → operators p < operands p

theorem ahead_nil : Ahead ([] : List (Item α)) := by
  intro p hp hne
  exact (hne (List.prefix_nil.mp hp)).elim

theorem Ahead.append_operand {s : List (Item α)} (h : Ahead s) (x : Operand α) :
    Ahead (s ++ [.operand x]) := by
  intro p hp hne
  rcases List.prefix_concat_iff.mp hp with rfl | hp
  · have hle : operators s ≤ operands s := by
      by_cases hnil : s = []
      · subst hnil
        exact Nat.le_refl 0
      · exact Nat.le_of_lt (h s (List.prefix_refl s) hnil)
    simp only [operators_append, operands_append, operators_operand, operands_operand]
    omega
  · exact h p hp hne

/-- As long as one operand more is left, operators may follow. -/
theorem Ahead.append_operators {s : List (Item α)} (h : Ahead s) {sent : List (Spanned α Operator)}
    (hsent : operators s + sent.length < operands s) : Ahead (s ++ sent.map Item.operator) := by
  rintro p ⟨q, hq⟩ hne
  rcases List.append_eq_append_iff.mp hq with ⟨m, rfl, -⟩ | ⟨m, rfl, hm⟩
  · exact h p (List.prefix_append p m) hne
  · have hfew := congrArg operators hm
    have hnone := congrArg operands hm
    simp only [operators_append, operands_append, operators_operators, operands_operators]
      at hfew hnone ⊢
    omega

/-! ## The yard -/

/-- The operators that wait bind more and more loosely, the latest first. -/
def Ascending (waiting : List (Spanned α Operator)) : Prop :=
  waiting.Pairwise fun later earlier => earlier.node.precedence < later.node.precedence

/-- What a yard holds when it has taken in a chain. The latest of the waiting operators stands at
the front. -/
structure Yard.Balanced (y : Yard α) (first : Operand α)
    (links : List (Spanned α Operator × Operand α)) : Prop where
  ascending : Ascending y.waiting
  few : y.waiting.length ≤ 7
  counts : operands y.output.toList = operators y.output.toList + y.waiting.length + 1
  ahead : Ahead y.output.toList
  /-- Everything that was taken in is in one place, once. -/
  items : (y.output.toList ++ y.waiting.map Item.operator).Perm (chainItems first links)

namespace Ascending

variable {waiting : List (Spanned α Operator)}

/-- There are no more levels than operators of different precedence. -/
theorem length_le (h : Ascending waiting) : waiting.length ≤ 7 := by
  have hnodup : (waiting.map fun o => o.node.precedence).Nodup :=
    List.pairwise_map.mpr (h.imp fun hlt => Nat.ne_of_gt hlt)
  have hlevels : (waiting.map fun o => o.node.precedence) ⊆ Arrangement.levels := by
    intro p hp
    obtain ⟨o, -, rfl⟩ := List.mem_map.mp hp
    exact Arrangement.precedence_mem_levels o.node
  simpa [Arrangement.levels] using (hnodup.subperm hlevels).length_le

/-- The first operator that stays binds more loosely than the one that comes in, and all behind it
bind more loosely still. -/
theorem lt_of_mem_dropWhile (h : Ascending waiting) {k : Nat} {w : Spanned α Operator}
    (hw : w ∈ waiting.dropWhile fun w => decide (k ≤ w.node.precedence)) :
    w.node.precedence < k := by
  induction waiting with
  | nil => simp at hw
  | cons first waiting ih =>
    obtain ⟨hbelow, hascending⟩ := List.pairwise_cons.mp h
    by_cases hk : k ≤ first.node.precedence
    · rw [List.dropWhile_cons_of_pos (by simpa using hk)] at hw
      exact ih hascending hw
    · rw [List.dropWhile_cons_of_neg (by simpa using hk)] at hw
      rcases List.mem_cons.mp hw with rfl | hw
      · omega
      · have := hbelow w hw
        omega

end Ascending

theorem chainItems_concat (first : Operand α) (links : List (Spanned α Operator × Operand α))
    (o : Spanned α Operator) (x : Operand α) :
    chainItems first (links ++ [(o, x)]) = chainItems first links ++ [.operator o, .operand x] := by
  simp [chainItems]

namespace Yard.Balanced

variable {y : Yard α} {first : Operand α} {links : List (Spanned α Operator × Operand α)}

theorem start (first : Operand α) : (Yard.start first).Balanced first [] where
  ascending := List.Pairwise.nil
  few := Nat.zero_le 7
  counts := rfl
  ahead := ahead_nil.append_operand first
  items := List.Perm.refl _

/-- The operators that are sent out leave the output one operand ahead at least. -/
theorem shift (h : y.Balanced first links) (o : Spanned α Operator) (x : Operand α) :
    (y.shift (o, x)).Balanced first (links ++ [(o, x)]) := by
  let ready := fun w : Spanned α Operator => decide (o.node.precedence ≤ w.node.precedence)
  let sent := y.waiting.takeWhile ready
  let kept := y.waiting.dropWhile ready
  have hsplit : sent ++ kept = y.waiting := List.takeWhile_append_dropWhile
  have hwaiting : (y.shift (o, x)).waiting = o :: kept := rfl
  have houtput : (y.shift (o, x)).output.toList =
      y.output.toList ++ sent.map Item.operator ++ [.operand x] := by
    simp [Yard.shift, sent, ready]
  have hcounts := h.counts
  rw [← hsplit, List.length_append] at hcounts
  have hascending : Ascending (o :: kept) :=
    List.pairwise_cons.mpr ⟨fun _ => h.ascending.lt_of_mem_dropWhile,
      h.ascending.sublist (List.dropWhile_sublist ready)⟩
  refine ⟨hascending, hascending.length_le, ?_, ?_, ?_⟩
  · simp only [hwaiting, houtput, operands_append, operators_append, operands_operators,
      operators_operators, operands_operand, operators_operand, List.length_cons]
    omega
  · rw [houtput]
    exact (h.ahead.append_operators (by omega)).append_operand x
  · rw [hwaiting, houtput, chainItems_concat]
    have htaken := h.items.append_right [.operator o, .operand x]
    rw [← hsplit, List.map_append] at htaken
    have hbehind : ([Item.operator o, .operand x] ++ kept.map Item.operator).Perm
        (kept.map Item.operator ++ [Item.operator o, .operand x]) := List.perm_append_comm
    have hlast : (Item.operand x :: (o :: kept).map Item.operator).Perm
        (kept.map Item.operator ++ [Item.operator o, .operand x]) :=
      (List.Perm.swap _ _ _).trans hbehind
    refine List.Perm.trans ?_ htaken
    simp only [List.append_assoc]
    exact (hlast.append_left _).append_left _

end Yard.Balanced

theorem length_chainItems (first : Operand α) (links : List (Spanned α Operator × Operand α)) :
    (chainItems first links).length = 2 * links.length + 1 := by
  induction links generalizing first with
  | nil => rfl
  | cons link links ih =>
    have hcons : chainItems first (link :: links) =
        .operand first :: .operator link.1 :: chainItems link.2 links := rfl
    rw [hcons, List.length_cons, List.length_cons, ih, List.length_cons]
    omega

theorem Yard.Balanced.length_finish {y : Yard α} {first : Operand α}
    {links : List (Spanned α Operator × Operand α)} (h : y.Balanced first links) :
    y.finish.length = 2 * links.length + 1 := by
  rw [Yard.finish, h.items.length_eq, length_chainItems]

/-! ## Turns -/

namespace Grammar

variable {d : Nat} {I rest : Input σ}

theorem operator_suffix {o} (h : operator.read I = .matched o rest) : rest <:+ I := by
  obtain ⟨_, _, rfl, -⟩ := Rule.token_matched.mp h
  exact List.suffix_cons _ _

theorem operand_suffix {x} (h : (operand d).read I = .matched x rest) : rest <:+ I := by
  obtain ⟨used, rfl, -⟩ := (reads_operand d).sound h
  exact List.suffix_append _ _

/-- The operators behind an operand, each with the operand behind it. -/
def links (depth : Nat) : Step σ (List (Spanned (Span σ) Operator × Operand (Span σ))) :=
  (operand depth).links operator fun o => .operandAfter o.node

theorem links_cons {o x} {middle : Input σ} (ho : operator.read I = .matched o middle)
    (hx : (operand d).read middle = .matched x rest) :
    (links d).read I = ((links d).read rest).map fun found => ((o, x) :: found.1, found.2) := by
  show Rule.readLinks _ _ _ I = _
  rw [Rule.readLinks_eq, ho]
  simp only [Rule.require_ok.mpr hx]
  show _ = (Rule.readLinks (operand d) operator _ rest).map _
  cases Rule.readLinks (operand d) operator _ rest <;> rfl

end Grammar

namespace Reader

open Grammar

theorem drop_take_append {l : List α} {i j k : Nat} (hij : i ≤ j) (hjk : j ≤ k)
    (hj : j ≤ l.length) : (l.take k).drop i = (l.take j).drop i ++ (l.take k).drop j := by
  have hlength : i ≤ (l.take j).length := by
    rw [List.length_take]
    omega
  calc (l.take k).drop i
      = ((l.take k).take j ++ (l.take k).drop j).drop i := by rw [List.take_append_drop]
    _ = (l.take j).drop i ++ (l.take k).drop j := by
      rw [List.take_take, Nat.min_eq_left hjk, List.drop_append_of_le_length hlength]

/-- An operator is one token. -/
theorem operator_token {r : Reader} {index behind : Nat} {o : Spanned (Span Token) Operator}
    (h : r.readAt operator index = .ok (some (behind, o))) :
    ∃ kind mark node, (r.input.take behind).drop index = [(kind, mark)] ∧
      Operator.ofKind? kind = some node ∧ o = ⟨.single mark, node⟩ := by
  obtain ⟨span, node⟩ := o
  obtain ⟨hread, hle⟩ := (readAt_eq_some operator_suffix).mp h
  obtain ⟨kind, mark, hinput, hkind, rfl⟩ := Rule.token_matched.mp hread
  have hone : behind = index + 1 := by
    have hlength := congrArg List.length hinput
    simp only [List.length_drop, List.length_cons, length_input] at hlength
    omega
  refine ⟨kind, mark, node, ?_, hkind, rfl⟩
  rw [List.drop_take, hinput, hone, Nat.add_sub_cancel_left, List.take_one, List.head?_cons,
    Option.toList_some]

/-- An operator is there, but reading the operand that has to follow it fails. -/
def LacksOperand (r : Reader) (depth index : Nat) (e : SyntaxError) : Prop :=
  ∃ behind o, r.readAt operator index = .ok (some (behind, o)) ∧
    (r.readAt (Grammar.operand depth) behind = .error e ∨
      r.readAt (Grammar.operand depth) behind = .ok none ∧
        e = ⟨r.tokenAt behind, .operandAfter o.node⟩)

theorem LacksOperand.links_read {r : Reader} {depth index : Nat} {e : SyntaxError}
    (h : r.LacksOperand depth index e) :
    ∃ failure, (Grammar.links depth).read (r.input.drop index) = .error failure ∧
      r.resolve failure = e := by
  obtain ⟨behind, o, ho, hx⟩ := h
  obtain ⟨hread, -⟩ := (readAt_eq_some operator_suffix).mp ho
  have hrequire : ∃ failure,
      ((Grammar.operand depth).require (.operandAfter o.node)).read (r.input.drop behind) =
        .error failure ∧ r.resolve failure = e := by
    rcases hx with hx | ⟨hx, rfl⟩
    · obtain ⟨failure, hbroken, rfl⟩ := readAt_eq_error.mp hx
      exact ⟨failure, Rule.requireOr_error.mpr (.inl hbroken), rfl⟩
    · exact ⟨_, Rule.requireOr_error.mpr (.inr ⟨readAt_eq_none.mp hx, rfl⟩),
        r.resolve_atFront _ behind⟩
  obtain ⟨failure, hrequire, hresolve⟩ := hrequire
  refine ⟨failure, ?_, hresolve⟩
  show Rule.readLinks _ _ _ _ = _
  rw [Rule.readLinks_eq, hread]
  simp only [hrequire]

/-- The tokens from `start` on begin with an operand and links, up to an index. There reading the
expression looks for the next operator, and this is the yard it has. -/
inductive Turn (r : Reader) (depth start : Nat) : Nat → Operand (Span Token) →
    List (Spanned (Span Token) Operator × Operand (Span Token)) → Yard (Span Token) → Prop
  | first {next x} (hx : r.readAt (Grammar.operand depth) start = .ok (some (next, x))) :
      Turn r depth start next x [] (.start x)
  | next {index first links yard behind o next x} (turn : Turn r depth start index first links yard)
      (ho : r.readAt operator index = .ok (some (behind, o)))
      (hx : r.readAt (Grammar.operand depth) behind = .ok (some (next, x))) :
      Turn r depth start next first (links ++ [(o, x)]) (yard.shift (o, x))

namespace Turn

variable {r : Reader} {depth start index : Nat} {first : Operand (Span Token)}
  {links : List (Spanned (Span Token) Operator × Operand (Span Token))} {yard : Yard (Span Token)}

/-- The whole expression comes to what the remaining turns come to. -/
theorem expression_read (h : Turn r depth start index first links yard) :
    (Grammar.expression depth).read (r.input.drop start) =
      match (Grammar.links depth).read (r.input.drop index) with
      | .ok (more, rest) => .matched (.postfixed (chainSpan first (links ++ more))
          (more.foldl Yard.shift yard).finish) rest
      | .error failure => .malformed failure := by
  induction h with
  | @first next x hx =>
    obtain ⟨hread, -⟩ := (readAt_eq_some operand_suffix).mp hx
    simp only [Grammar.expression, expressionOf, Rule.map, Rule.chain, Rule.andThen, hread,
      Step.read_bind, Step.read_pure, Grammar.links]
    cases ((Grammar.operand depth).links operator _).read (r.input.drop next) <;> rfl
  | @next index first links yard behind o next x _ ho hx ih =>
    obtain ⟨hop, -⟩ := (readAt_eq_some operator_suffix).mp ho
    obtain ⟨hread, -⟩ := (readAt_eq_some operand_suffix).mp hx
    rw [ih, links_cons hop hread]
    cases (Grammar.links depth).read (r.input.drop next) with
    | error failure => rfl
    | ok found => simp [Except.map]

theorem advances (h : Turn r depth start index first links yard) :
    start < index ∧ index ≤ r.tokens.length := by
  induction h with
  | first hx => exact readAt_advances hx
  | next _ ho hx ih =>
    obtain ⟨hbehind, -⟩ := readAt_advances ho
    obtain ⟨hnext, hle⟩ := readAt_advances hx
    exact ⟨by omega, hle⟩

/-- The links are what stands between the start and the turn. -/
theorem phrase (h : Turn r depth start index first links yard) :
    ChainPhrase ((r.input.take index).drop start) first links := by
  induction h with
  | first hx => exact .single (readAt_phrase (reads_operand depth) hx).1
  | @next index first links yard behind o next x turn ho hx ih =>
    obtain ⟨hstart, hindex⟩ := turn.advances
    obtain ⟨hbehind, hle⟩ := readAt_advances ho
    obtain ⟨hnext, -⟩ := readAt_advances hx
    obtain ⟨kind, mark, node, htoken, hkind, rfl⟩ := operator_token ho
    have hfront : (r.input.take next).drop start =
        (r.input.take index).drop start ++ (kind, mark) :: (r.input.take next).drop behind := by
      rw [drop_take_append (Nat.le_of_lt hstart) (hbehind.trans hnext).le
          (hindex.trans_eq r.length_input.symm),
        drop_take_append hbehind.le hnext.le (hle.trans_eq r.length_input.symm), htoken,
        List.singleton_append]
    rw [hfront]
    exact ih.append hkind (.single (readAt_phrase (reads_operand depth) hx).1)

theorem balanced (h : Turn r depth start index first links yard) : yard.Balanced first links := by
  induction h with
  | first => exact .start _
  | next _ _ _ ih => exact ih.shift _ _

/-! ### The last turn -/

theorem read_of_absent (h : Turn r depth start index first links yard)
    (ho : r.readAt operator index = .ok none) :
    r.readAt (Grammar.expression depth) start =
      .ok (some (index, .postfixed (chainSpan first links) yard.finish)) := by
  have hnone : (Grammar.links depth).read (r.input.drop index) = .ok ([], r.input.drop index) :=
    Rule.links_ok.mpr (.inl ⟨rfl, rfl, readAt_eq_none.mp ho⟩)
  simp only [readAt, h.expression_read, hnone, List.append_nil, List.foldl_nil,
    sub_length_drop_input h.advances.2]

theorem read_of_lacks (h : Turn r depth start index first links yard) {e : SyntaxError}
    (hlacks : r.LacksOperand depth index e) :
    r.readAt (Grammar.expression depth) start = .error e := by
  obtain ⟨failure, hlinks, rfl⟩ := hlacks.links_read
  simp only [readAt, h.expression_read, hlinks]

/-- Every turn is followed by one with no operator behind it, or no operand behind that. -/
theorem exists_last {index : Nat}
    {links : List (Spanned (Span Token) Operator × Operand (Span Token))}
    {yard : Yard (Span Token)} (h : Turn r depth start index first links yard) :
    ∃ index first links yard, Turn r depth start index first links yard ∧
      (r.readAt operator index = .ok none ∨ ∃ e, r.LacksOperand depth index e) := by
  cases ho : r.readAt operator index with
  | error e =>
    obtain ⟨_, hread, -⟩ := readAt_eq_error.mp ho
    exact (Rule.token_ne_malformed hread).elim
  | ok found =>
    cases found with
    | none => exact ⟨index, first, links, yard, h, .inl ho⟩
    | some found =>
      obtain ⟨behind, o⟩ := found
      cases hx : r.readAt (Grammar.operand depth) behind with
      | error e => exact ⟨index, first, links, yard, h, .inr ⟨e, behind, o, ho, .inl hx⟩⟩
      | ok found =>
        cases found with
        | none => exact ⟨index, first, links, yard, h, .inr ⟨_, behind, o, ho, .inr ⟨hx, rfl⟩⟩⟩
        | some found => exact exists_last (h.next ho hx)
termination_by r.tokens.length - index
decreasing_by
  have := readAt_advances ho
  have := readAt_advances hx
  omega

end Turn

theorem expression_of_operand_error {r : Reader} {depth start : Nat} {e : SyntaxError}
    (h : r.readAt (Grammar.operand depth) start = .error e) :
    r.readAt (Grammar.expression depth) start = .error e := by
  obtain ⟨failure, hread, hresolve⟩ := readAt_eq_error.mp h
  refine readAt_eq_error.mpr ⟨failure, ?_, hresolve⟩
  exact Rule.map_malformed.mpr (Rule.chain_malformed.mpr (.inl hread))

theorem expression_of_operand_none {r : Reader} {depth start : Nat}
    (h : r.readAt (Grammar.operand depth) start = .ok none) :
    r.readAt (Grammar.expression depth) start = .ok none :=
  readAt_eq_none.mpr (Rule.map_absent.mpr (Rule.chain_absent.mpr (readAt_eq_none.mp h)))

/-- An expression has a last turn unless it has none. -/
theorem readAt_expression (r : Reader) (depth start : Nat) :
    (r.readAt (Grammar.operand depth) start = .ok none ∧
      r.readAt (Grammar.expression depth) start = .ok none) ∨
    (∃ e, r.readAt (Grammar.operand depth) start = .error e ∧
      r.readAt (Grammar.expression depth) start = .error e) ∨
    ∃ index first links yard, Turn r depth start index first links yard ∧
      (r.readAt operator index = .ok none ∨ ∃ e, r.LacksOperand depth index e) := by
  cases hx : r.readAt (Grammar.operand depth) start with
  | error e => exact .inr (.inl ⟨e, rfl, expression_of_operand_error hx⟩)
  | ok found =>
    cases found with
    | none => exact .inl ⟨rfl, expression_of_operand_none hx⟩
    | some found => exact .inr (.inr (Turn.first hx).exists_last)

/-- In every turn the yard has taken in the tokens from the start on: the waiting operators ascend,
so that there are never more than seven, the output has one operand more than there are operators
written or waiting, and is ahead with operands from its first item on, and everything that was
taken in is there once. Sent out, it has two items for each operator, and one more. The expression
matches up to a turn behind which there is no operator, and has in it what the yard holds there. It
fails where its first operand does, or where a turn finds an operator but no operand behind it. -/
theorem expression_balanced (r : Reader) (depth start : Nat) :
    (∀ index first links yard, Turn r depth start index first links yard →
      ChainPhrase ((r.input.take index).drop start) first links ∧ yard.Balanced first links ∧
        yard.finish.length = 2 * links.length + 1) ∧
    (∀ index e, r.readAt (Grammar.expression depth) start = .ok (some (index, e)) ↔
      ∃ first links yard, Turn r depth start index first links yard ∧
        r.readAt operator index = .ok none ∧
        e = .postfixed (chainSpan first links) yard.finish) ∧
    ∀ e, r.readAt (Grammar.expression depth) start = .error e ↔
      r.readAt (Grammar.operand depth) start = .error e ∨
      ∃ index first links yard, Turn r depth start index first links yard ∧
        r.LacksOperand depth index e := by
  refine ⟨fun index first links yard turn => ⟨turn.phrase, turn.balanced,
    turn.balanced.length_finish⟩, fun index e => ⟨fun h => ?_, ?_⟩, fun e => ⟨fun h => ?_, ?_⟩⟩
  · rcases r.readAt_expression depth start with ⟨-, habsent⟩ | ⟨_, -, hfails⟩ |
      ⟨last, first, links, yard, turn, ho | ⟨_, hlacks⟩⟩
    · cases habsent.symm.trans h
    · cases hfails.symm.trans h
    · cases (turn.read_of_absent ho).symm.trans h
      exact ⟨first, links, yard, turn, ho, rfl⟩
    · cases (turn.read_of_lacks hlacks).symm.trans h
  · rintro ⟨first, links, yard, turn, ho, rfl⟩
    exact turn.read_of_absent ho
  · rcases r.readAt_expression depth start with ⟨-, habsent⟩ | ⟨_, hoperand, hfails⟩ |
      ⟨last, first, links, yard, turn, ho | ⟨_, hlacks⟩⟩
    · cases habsent.symm.trans h
    · cases hfails.symm.trans h
      exact .inl hoperand
    · cases (turn.read_of_absent ho).symm.trans h
    · cases (turn.read_of_lacks hlacks).symm.trans h
      exact .inr ⟨last, first, links, yard, turn, hlacks⟩
  · rintro (hoperand | ⟨last, first, links, yard, turn, hlacks⟩)
    · exact expression_of_operand_error hoperand
    · exact turn.read_of_lacks hlacks

/-- AND binds more tightly than OR, so that both still wait. -/
example :
    let token := fun kind raw position => (⟨kind, raw, position, ⟨"", "a OR b AND c"⟩⟩ : Token)
    let r : Reader := ⟨token (.name "A") "a" 0, [token (.keyword "OR") "OR" 2,
      token (.name "B") "b" 5, token (.keyword "AND") "AND" 7, token (.name "C") "c" 11], 1⟩
    ∃ first links yard, Turn r 1 0 5 first links yard ∧
      yard.waiting.map Spanned.node = [.and, .or] :=
  ⟨_, _, _, .next (.next (.first rfl) rfl rfl) rfl rfl, rfl⟩

end Reader

end SqlScript

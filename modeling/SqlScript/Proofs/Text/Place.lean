import Mathlib.Algebra.GroupWithZero.Nat
import SqlScript.Text.Place

/-!
# Offsets and places

The offsets at which characters begin, and the end of the text, are the places of the text: each of
its lines has one for every character and one more at its end (`offset?_eq_some_iff`). All other
offsets count as the end.
-/

namespace SqlScript

/-- A character begins at this byte offset, or the text ends there. -/
def Boundary (text : List Char) (offset : Nat) : Prop :=
  ∃ before after, text = before ++ after ∧ byteLength before = offset

namespace Place

/-- Further down, or further right on one line. -/
def Before (p q : Place) : Prop := p.line < q.line ∨ p.line = q.line ∧ p.column < q.column

/-- The byte offset of a place, if there is such a line and it is long enough: the lines above with
their line breaks, and what stands before the column. -/
def offset? (text : List Char) (p : Place) : Option Nat :=
  let lines := text.splitOn '\n'
  lines[p.line]?.bind fun line =>
    if p.column ≤ line.length then
      some (((lines.take p.line).map (byteLength · + 1)).sum + byteLength (line.take p.column))
    else none

end Place

/-! ## Cutting -/

theorem cutAt?_byteLength (before after : List Char) :
    cutAt? (byteLength before) (before ++ after) = some (before, after) := by
  induction before with
  | nil =>
    cases after <;> rfl
  | cons c before ih =>
    obtain ⟨n, hn⟩ := Nat.exists_eq_add_one_of_ne_zero (Nat.ne_of_gt c.utf8Size_pos)
    have hsize : byteLength (c :: before) = n + byteLength before + 1 := by
      rw [byteLength_cons, hn]
      omega
    have hrest : n + byteLength before + 1 - c.utf8Size = byteLength before := by omega
    rw [hsize, List.cons_append, cutAt?, if_pos (by omega), hrest, ih]
    rfl

theorem byteLength_of_cutAt? {n : Nat} {text before after : List Char}
    (h : cutAt? n text = some (before, after)) : byteLength before = n := by
  fun_induction cutAt? n text generalizing before with
  | case1 => simp_all
  | case2 => cases h
  | case3 n c text hc ih =>
    obtain ⟨⟨b, a⟩, hcut, heq⟩ := Option.map_eq_some_iff.mp h
    cases heq
    rw [byteLength_cons, ih hcut]
    omega
  | case4 => cases h

theorem cutAt_byteLength (before after : List Char) :
    cutAt (byteLength before) (before ++ after) = (before, after) := by
  rw [cutAt, cutAt?_byteLength]
  rfl

theorem boundary_iff {text : List Char} {offset : Nat} :
    Boundary text offset ↔ (cutAt? offset text).isSome = true := by
  constructor
  · rintro ⟨before, after, rfl, rfl⟩
    rw [cutAt?_byteLength, Option.isSome_some]
  · intro h
    obtain ⟨⟨before, after⟩, hcut⟩ := Option.isSome_iff_exists.mp h
    exact ⟨before, after, (cutAt?_append hcut).symm, byteLength_of_cutAt? hcut⟩

theorem cutAt_of_not_boundary {text : List Char} {offset : Nat} (h : ¬ Boundary text offset) :
    cutAt offset text = (text, []) := by
  rw [boundary_iff, Bool.not_eq_true, Option.isSome_eq_false_iff, Option.isNone_iff_eq_none] at h
  rw [cutAt, h]
  rfl

/-! ## Lines -/

/-- Lines, each with its line break. -/
def terminated (lines : List (List Char)) : List Char := lines.flatMap (· ++ ['\n'])

@[simp] theorem terminated_nil : terminated [] = [] := rfl

@[simp] theorem terminated_cons (line : List Char) (lines : List (List Char)) :
    terminated (line :: lines) = line ++ '\n' :: terminated lines := by
  simp [terminated]

@[simp] theorem terminated_append (lines lines' : List (List Char)) :
    terminated (lines ++ lines') = terminated lines ++ terminated lines' :=
  List.flatMap_append

theorem byteLength_terminated (lines : List (List Char)) :
    byteLength (terminated lines) = (lines.map (byteLength · + 1)).sum := by
  induction lines with
  | nil => rfl
  | cons line lines ih =>
    have hbreak : '\n'.utf8Size = 1 := by decide
    simp only [terminated_cons, byteLength_append, byteLength_cons, hbreak, ih, List.map_cons,
      List.sum_cons]
    omega

/-- A text as its whole lines and what stands behind the last line break. -/
structure Lined (text : List Char) (lines : List (List Char)) (rest : List Char) : Prop where
  text_eq : text = terminated lines ++ rest
  whole : ∀ line ∈ lines, '\n' ∉ line
  open_end : '\n' ∉ rest

theorem exists_lined (text : List Char) : ∃ lines rest, Lined text lines rest := by
  induction text with
  | nil => exact ⟨[], [], rfl, by simp, by simp⟩
  | cons c text ih =>
    obtain ⟨lines, rest, rfl, hwhole, hopen⟩ := ih
    by_cases hc : c = '\n'
    · refine ⟨[] :: lines, rest, by simp [hc], ?_, hopen⟩
      exact List.forall_mem_cons.mpr ⟨by simp, hwhole⟩
    · have hnot : '\n' ≠ c := fun h => hc h.symm
      cases lines with
      | nil => exact ⟨[], c :: rest, rfl, by simp, by simp [hnot, hopen]⟩
      | cons line lines =>
        obtain ⟨hline, hlines⟩ := List.forall_mem_cons.mp hwhole
        refine ⟨(c :: line) :: lines, rest, by simp, ?_, hopen⟩
        exact List.forall_mem_cons.mpr ⟨by simp [hnot, hline], hlines⟩

/-- The first line of a text. -/
theorem exists_splitOn {start : List Char} (h : '\n' ∉ start) (after : List Char) :
    ∃ back, (start ++ after).splitOn '\n' = (start ++ after.takeWhile (· ≠ '\n')) :: back := by
  have hline : '\n' ∉ start ++ after.takeWhile (· ≠ '\n') := by
    rw [List.mem_append, not_or]
    exact ⟨h, fun hmem => by simpa using List.all_eq_true.mp List.all_takeWhile _ hmem⟩
  have hafter := List.takeWhile_append_dropWhile (p := (· ≠ '\n')) (l := after)
  have hnext := List.head?_dropWhile_not (· ≠ '\n') after
  cases hdrop : after.dropWhile (· ≠ '\n') with
  | nil =>
    rw [hdrop, List.append_nil] at hafter
    refine ⟨[], ?_⟩
    rw [hafter] at hline ⊢
    exact List.splitOn_eq_singleton hline
  | cons c rest =>
    rw [hdrop] at hafter hnext
    obtain rfl : c = '\n' := by simpa using hnext
    refine ⟨rest.splitOn '\n', ?_⟩
    rw [← List.splitOn_append_cons_self_of_not_mem hline, List.append_assoc, hafter]

theorem splitOn_terminated {lines : List (List Char)} (h : ∀ line ∈ lines, '\n' ∉ line)
    (rest : List Char) : (terminated lines ++ rest).splitOn '\n' = lines ++ rest.splitOn '\n' := by
  induction lines with
  | nil => rfl
  | cons line lines ih =>
    obtain ⟨hline, hlines⟩ := List.forall_mem_cons.mp h
    rw [terminated_cons, List.append_assoc, List.cons_append,
      List.splitOn_append_cons_self_of_not_mem hline, ih hlines, List.cons_append]

namespace Lined

variable {text : List Char} {lines : List (List Char)} {rest : List Char}

/-- Whatever follows a text, its whole lines are lines, and its last one goes on. -/
theorem splitOn_append (h : Lined text lines rest) (after : List Char) :
    ∃ back, (text ++ after).splitOn '\n' =
      lines ++ (rest ++ after.takeWhile (· ≠ '\n')) :: back := by
  obtain ⟨rfl, hwhole, hopen⟩ := h
  obtain ⟨back, hback⟩ := exists_splitOn hopen after
  exact ⟨back, by rw [List.append_assoc, splitOn_terminated hwhole, hback]⟩

theorem splitOn_eq (h : Lined text lines rest) : text.splitOn '\n' = lines ++ [rest] := by
  obtain ⟨rfl, hwhole, hopen⟩ := h
  rw [splitOn_terminated hwhole, List.splitOn_eq_singleton hopen]

/-- What stands before the end of a line, and the line itself. -/
theorem exists_before (h : Lined text lines rest) {front back : List (List Char)}
    {line : List Char} (heq : text.splitOn '\n' = front ++ line :: back) :
    (∀ l ∈ front, '\n' ∉ l) ∧ '\n' ∉ line ∧
      ∃ after, text = terminated front ++ (line ++ after) := by
  rw [h.splitOn_eq] at heq
  obtain ⟨rfl, hwhole, hopen⟩ := h
  rcases List.eq_nil_or_concat back with rfl | ⟨back, last, rfl⟩
  · obtain ⟨rfl, hrest⟩ := List.append_inj' heq rfl
    cases hrest
    exact ⟨hwhole, hopen, [], by simp⟩
  · rw [List.concat_eq_append, ← List.cons_append, ← List.append_assoc] at heq
    obtain ⟨rfl, -⟩ := List.append_inj' heq rfl
    obtain ⟨hfront, hline, -⟩ := by simpa [or_imp, forall_and] using hwhole
    exact ⟨hfront, hline, '\n' :: terminated back ++ rest, by simp⟩

theorem count (h : Lined text lines rest) : text.count '\n' = lines.length := by
  obtain ⟨rfl, hwhole, hopen⟩ := h
  induction lines with
  | nil => exact List.count_eq_zero.mpr hopen
  | cons line lines ih =>
    obtain ⟨hline, hlines⟩ := List.forall_mem_cons.mp hwhole
    have hzero := List.count_eq_zero.mpr hline
    have hmore := ih hlines
    simp only [terminated_cons, List.append_assoc, List.cons_append, List.count_append,
      List.count_cons_self, List.length_cons] at hmore ⊢
    omega

theorem lastLine_eq (h : Lined text lines rest) : lastLine text = rest := by
  obtain ⟨rfl, -, hopen⟩ := h
  have hrest : ∀ c ∈ rest.reverse, (c ≠ '\n' : Bool) = true := fun c hc => by
    simpa using fun heq : c = '\n' => hopen (heq ▸ List.mem_reverse.mp hc)
  have hstop : (terminated lines).reverse.takeWhile (· ≠ '\n') = [] := by
    rcases List.eq_nil_or_concat lines with rfl | ⟨front, line, rfl⟩
    · rfl
    · simp
  rw [lastLine, List.reverse_append, List.takeWhile_append_of_pos hrest, hstop, List.append_nil,
    List.reverse_reverse]

end Lined

namespace Place

theorem foldl_next {line : List Char} (h : '\n' ∉ line) (p : Place) :
    line.foldl next p = ⟨p.line, p.column + line.length⟩ := by
  induction line generalizing p with
  | nil => rfl
  | cons c line ih =>
    rw [List.mem_cons, not_or] at h
    rw [List.foldl_cons, next, if_neg (Ne.symm h.1), ih h.2, List.length_cons]
    simp only [mk.injEq, true_and]
    omega

theorem foldl_next_terminated {lines : List (List Char)} (h : ∀ line ∈ lines, '\n' ∉ line)
    (n : Nat) : (terminated lines).foldl next ⟨n, 0⟩ = ⟨n + lines.length, 0⟩ := by
  induction lines generalizing n with
  | nil => rfl
  | cons line lines ih =>
    obtain ⟨hline, hlines⟩ := List.forall_mem_cons.mp h
    rw [terminated_cons, List.foldl_append, foldl_next hline, List.foldl_cons, next, if_pos rfl,
      ih hlines, List.length_cons]
    simp only [mk.injEq, and_true]
    omega

theorem endOf_of_lined {text rest : List Char} {lines : List (List Char)}
    (h : Lined text lines rest) : endOf text = ⟨lines.length, rest.length⟩ := by
  obtain ⟨rfl, hwhole, hopen⟩ := h
  rw [endOf, List.foldl_append, foldl_next_terminated hwhole, foldl_next hopen, Nat.zero_add,
    Nat.zero_add]

/-- The line breaks of a text, and the characters behind the last of them. -/
theorem endOf_eq (text : List Char) :
    endOf text = ⟨text.count '\n', (lastLine text).length⟩ := by
  obtain ⟨lines, rest, h⟩ := exists_lined text
  rw [endOf_of_lined h, h.count, h.lastLine_eq]

theorem ofOffset_byteLength (before after : List Char) :
    ofOffset (before ++ after) (byteLength before) = endOf before := by
  rw [ofOffset, cutAt_byteLength]

/-! ## Places and offsets -/

theorem offset?_endOf (before after : List Char) :
    offset? (before ++ after) (endOf before) = some (byteLength before) := by
  obtain ⟨lines, rest, h⟩ := exists_lined before
  obtain ⟨back, hback⟩ := h.splitOn_append after
  have hlength := byteLength_terminated lines
  rw [endOf_of_lined h, offset?, hback]
  simp [h.text_eq, hlength]

theorem endOf_of_offset? {text : List Char} {p : Place} {offset : Nat}
    (h : offset? text p = some offset) :
    ∃ before after, text = before ++ after ∧ byteLength before = offset ∧ endOf before = p := by
  obtain ⟨lines, rest, hlined⟩ := exists_lined text
  obtain ⟨line, hline, hcolumn⟩ := Option.bind_eq_some_iff.mp h
  split at hcolumn
  · next hle =>
    obtain ⟨hlt, rfl⟩ := List.getElem?_eq_some_iff.mp hline
    -- the lines above, the line itself, and the lines below
    have hsplit := List.take_append_drop p.line (text.splitOn '\n')
    rw [List.drop_eq_getElem_cons hlt] at hsplit
    obtain ⟨hfront, hopen, after, htext⟩ := hlined.exists_before hsplit.symm
    have hbefore : Lined (terminated ((text.splitOn '\n').take p.line) ++
        (text.splitOn '\n')[p.line].take p.column) _ _ :=
      ⟨rfl, hfront, fun hmem => hopen (List.mem_of_mem_take hmem)⟩
    refine ⟨_, (text.splitOn '\n')[p.line].drop p.column ++ after, ?_, ?_,
      (endOf_of_lined hbefore).trans ?_⟩
    · rw [List.append_assoc, ← List.append_assoc (List.take _ _), List.take_append_drop, ← htext]
    · rw [byteLength_append, byteLength_terminated]
      exact Option.some.inj hcolumn
    · rw [List.length_take_of_le (Nat.le_of_lt hlt), List.length_take_of_le hle]
  · cases hcolumn

/-- Offsets at which characters begin correspond to the places of a text. -/
theorem offset?_eq_some_iff {text : List Char} {p : Place} {offset : Nat} :
    offset? text p = some offset ↔ Boundary text offset ∧ ofOffset text offset = p := by
  constructor
  · intro h
    obtain ⟨before, after, rfl, rfl, rfl⟩ := endOf_of_offset? h
    exact ⟨⟨before, after, rfl, rfl⟩, ofOffset_byteLength before after⟩
  · rintro ⟨⟨before, after, rfl, rfl⟩, rfl⟩
    rw [ofOffset_byteLength, offset?_endOf]

/-! ## Order -/

theorem Before.trans {p q r : Place} (h : p.Before q) (h' : q.Before r) : p.Before r := by
  simp only [Before] at *
  omega

theorem before_next (p : Place) (c : Char) : p.Before (p.next c) := by
  rw [next]
  split
  · exact .inl (Nat.lt_succ_self _)
  · exact .inr ⟨rfl, Nat.lt_succ_self _⟩

theorem before_foldl_next (p : Place) (c : Char) (more : List Char) :
    p.Before ((c :: more).foldl next p) := by
  induction more generalizing p c with
  | nil => exact before_next p c
  | cons d more ih => exact (before_next p c).trans (ih (p.next c) d)

theorem ofOffset_before {text : List Char} {m n : Nat} (hm : Boundary text m)
    (hn : Boundary text n) (h : m < n) : (ofOffset text m).Before (ofOffset text n) := by
  obtain ⟨before, after, rfl, rfl⟩ := hm
  obtain ⟨before', after', htext, rfl⟩ := hn
  rw [ofOffset_byteLength]
  rcases List.append_eq_append_iff.mp htext with ⟨more, rfl, rfl⟩ | ⟨more, rfl, rfl⟩
  · rw [← List.append_assoc, ofOffset_byteLength, endOf, endOf, List.foldl_append]
    cases more with
    | nil => simp at h
    | cons c more => exact before_foldl_next _ c more
  · rw [byteLength_append] at h
    omega

/-! ## Lines at offsets -/

theorem lineAt_eq (before after : List Char) :
    lineAt (before ++ after) (byteLength before) =
      lastLine before ++ after.takeWhile (· ≠ '\n') := by
  rw [lineAt, cutAt_byteLength]

/-- The line of any offset is there, and it reaches up to the column. -/
theorem splitOn_ofOffset (text : List Char) (offset : Nat) :
    (text.splitOn '\n')[(ofOffset text offset).line]? = some (lineAt text offset) ∧
      (ofOffset text offset).column ≤ (lineAt text offset).length := by
  have htext := cutAt_append offset text
  rw [ofOffset, lineAt]
  cases hcut : cutAt offset text with
  | mk before after =>
    rw [hcut] at htext
    obtain ⟨lines, rest, h⟩ := exists_lined before
    obtain ⟨back, hback⟩ := h.splitOn_append after
    rw [htext] at hback
    simp [endOf_of_lined h, hback, h.lastLine_eq]

/-- What stands before an offset are whole lines and the beginning of one more. -/
theorem ofOffset_split (text : List Char) (offset : Nat) :
    ∃ above start after, text = above ++ (start ++ after) ∧
      (cutAt offset text).1 = above ++ start ∧ above.getLast?.all (· = '\n') ∧ '\n' ∉ start ∧
      ofOffset text offset = ⟨above.count '\n', start.length⟩ := by
  obtain ⟨lines, rest, h⟩ := exists_lined (cutAt offset text).1
  have habove : Lined (terminated lines) lines [] := ⟨by simp, h.whole, by simp⟩
  refine ⟨terminated lines, rest, (cutAt offset text).2, ?_, h.text_eq, ?_, h.open_end, ?_⟩
  · rw [← List.append_assoc, ← h.text_eq, cutAt_append]
  · rcases List.eq_nil_or_concat lines with rfl | ⟨front, line, rfl⟩
    · rfl
    · simp
  · rw [ofOffset, endOf_of_lined h, habove.count]

end Place

end SqlScript

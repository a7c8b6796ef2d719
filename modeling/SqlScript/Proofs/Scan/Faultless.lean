import SqlScript.Proofs.Scan.Recognizers

/-!
# Cutting by byte offsets never goes wrong

What is left of a scanner's source stands at its position (`Scanner.Fits`). There the cursor finds
the token that the scanner takes, so that it never leaves the boundaries, stops where the scanner
stops and gives what it gives, call after call (`Source.cursor_faultless`).
-/

namespace SqlScript

namespace Cursor

variable {text after : List Char} {offset : Nat}

/-! ## Tokens -/

theorem moveTo_eq (h : SuffixAt text offset after) : moveTo text offset = .ok offset :=
  if_pos (boundary_iff.mp h.boundary)

theorem ascii_of_isBlank (c : Char) (h : Scanner.isBlank c = true) : c.toNat < 128 := by
  have hle : c.toNat ≤ 32 := of_decide_eq_true h
  omega

theorem skipBlanks_eq (h : SuffixAt text offset after) :
    skipBlanks text offset = .ok (offset + byteLength (after.takeWhile Scanner.isBlank)) := by
  induction after generalizing offset with
  | nil =>
    rw [skipBlanks, h.any_peek? ascii_of_isBlank]
    rfl
  | cons c after ih =>
    rw [skipBlanks, h.any_peek? ascii_of_isBlank, List.head?_cons, Option.any_some]
    split
    · next hc =>
      have hnext := h.next (ascii_of_isBlank c hc)
      rw [moveTo_eq hnext, List.takeWhile_cons_of_pos hc, byteLength_cons,
        utf8Size_of_ascii (ascii_of_isBlank c hc), ← Nat.add_assoc]
      exact ih hnext
    · next hc =>
      rw [List.takeWhile_cons_of_neg hc]
      rfl

theorem tokenizeFrom_of {source : Source} {position start : Nat}
    (h : skipBlanks source.text.toList position = .ok start) :
    tokenizeFrom source position =
      if byteLength source.text.toList ≤ start then .ok (.ok [], start)
      else match token source start with
        | .error (.fault fault) => .error fault
        | .error (.failed e) => .ok (.error e, start)
        | .ok (t, stop) => (tokenizeFrom source stop).map fun (result, position) =>
          (result.map (t :: ·), position) := by
  rw [tokenizeFrom]
  split
  · next hskip => rw [h] at hskip; cases hskip
  · next hskip =>
    rw [h] at hskip
    cases hskip
    split
    · rfl
    · split <;> rename_i heq <;> rw [heq]

end Cursor

/-! ## The scanner -/

namespace Scanner

/-- What is left is what stands at the position. -/
def Fits (s : Scanner) : Prop := SuffixAt s.source.text.toList s.position s.rest

theorem fits_ofSource (source : Source) : (ofSource source).Fits := .zero _

namespace Fits

variable {s : Scanner}

theorem advance (h : s.Fits) {taken rest : List Char} (hrest : taken ++ rest = s.rest) :
    (s.advance taken rest).Fits :=
  SuffixAt.skip (hrest ▸ h)

theorem skipBlanks (h : s.Fits) : s.skipBlanks.Fits := h.advance List.takeWhile_append_dropWhile

theorem token_eq (h : s.Fits) (hne : s.rest ≠ []) :
    Cursor.token s.source s.position =
      match Lexeme.recognize s.rest with
      | .ok (l, rest) => .ok (s.token l, (s.advance l.spell rest).position)
      | .error reason => .error (.failed (s.failure reason)) := by
  have hmatch : Cursor.firstMatch s.source.text.toList s.position Cursor.recognizers =
      Cursor.outcome s.source.text.toList s.position (Lexeme.recognize s.rest) := by
    obtain ⟨c, after, hrest⟩ := List.exists_cons_of_ne_nil hne
    rw [hrest]
    exact Cursor.firstMatch_recognizers (hrest ▸ h)
  rw [Cursor.token, hmatch]
  cases hread : Lexeme.recognize s.rest with
  | error reason =>
    cases reason with
    | unexpectedCharacter =>
      have hleft : slice? s.source.text.toList s.position (byteLength s.source.text.toList) =
        some s.rest := SuffixAt.slice?_end h
      simp only [Cursor.outcome, Cursor.ok_bind, Cursor.failAt, hleft, Cursor.expect_some]
      rfl
    | unterminatedString | unterminatedName =>
      have hend : s.position + byteLength s.rest = byteLength s.source.text.toList :=
        SuffixAt.offset_add h
      simp only [Cursor.outcome, failure, hend]
      rfl
  | ok found =>
    obtain ⟨l, rest⟩ := found
    have happend := Lexeme.spell_append_of_recognize hread
    have hextent : _ < _ ∧ _ ≤ _ :=
      (Cursor.proper_outcome h).2 (s.position + byteLength l.spell) l.kind (by rw [hread]; rfl)
    have hmove : Cursor.moveTo s.source.text.toList (s.position + byteLength l.spell) = .ok _ :=
      Cursor.moveTo_eq (h.advance happend)
    simp only [Cursor.outcome, Cursor.ok_bind, if_pos hextent, Cursor.slice_of_append h happend,
      Cursor.expect_some, hmove]
    rfl

/-- The cursor does what the scanner does, and what is left then is again what stands there. -/
theorem tokenizeFrom_eq (h : s.Fits) :
    Cursor.tokenizeFrom s.source s.position = .ok (s.tokenize.1, s.tokenize.2.position) ∧
      s.tokenize.2.Fits ∧ s.tokenize.2.source = s.source := by
  induction hlength : s.rest.length using Nat.strongRecOn generalizing s with
  | ind n ih =>
    have hstart := h.skipBlanks
    have hskip : Cursor.skipBlanks s.source.text.toList s.position = .ok s.skipBlanks.position :=
      Cursor.skipBlanks_eq h
    have hend : s.skipBlanks.position + byteLength s.skipBlanks.rest =
        byteLength s.source.text.toList := hstart.offset_add
    rw [Cursor.tokenizeFrom_of hskip]
    by_cases hnil : s.skipBlanks.rest = []
    · rw [hnil, byteLength_nil, Nat.add_zero] at hend
      rw [if_pos (Nat.le_of_eq hend.symm), tokenize_of_nil hnil]
      exact ⟨rfl, hstart, rfl⟩
    · have hlt : ¬ byteLength s.source.text.toList ≤ s.skipBlanks.position := by
        obtain ⟨c, after, hrest⟩ := List.exists_cons_of_ne_nil hnil
        have hpos := c.utf8Size_pos
        rw [hrest, byteLength_cons] at hend
        omega
      have htoken : Cursor.token s.source s.skipBlanks.position = _ := hstart.token_eq hnil
      rw [if_neg hlt, htoken]
      cases hread : Lexeme.recognize s.skipBlanks.rest with
      | error reason =>
        rw [tokenize_of_error hnil hread]
        exact ⟨rfl, hstart, rfl⟩
      | ok found =>
        obtain ⟨l, rest⟩ := found
        have hnext := hstart.advance (Lexeme.spell_append_of_recognize hread)
        have hshorter : rest.length < n := by
          have hle := (List.dropWhile_sublist isBlank (l := s.rest)).length_le
          have hless := Lexeme.length_lt_of_recognize hread
          rw [rest_skipBlanks] at hless
          omega
        obtain ⟨hrun, hfits, hsource⟩ := ih rest.length hshorter hnext rfl
        have hrun' : Cursor.tokenizeFrom s.source (s.skipBlanks.advance l.spell rest).position =
          _ := hrun
        rw [tokenize_of_ok hread]
        refine ⟨?_, hfits, hsource⟩
        simp only [hrun']
        rfl

theorem tokenize_eq (h : s.Fits) :
    s.cursor.tokenize = .ok (s.tokenize.1, s.tokenize.2.cursor) ∧
      s.tokenize.2.Fits ∧ s.tokenize.2.source = s.source := by
  obtain ⟨hrun, hfits, hsource⟩ := h.tokenizeFrom_eq
  have hrun' : Cursor.tokenizeFrom s.cursor.source s.cursor.position = _ := hrun
  rw [Cursor.tokenize, hrun', cursor, cursor, hsource]
  exact ⟨rfl, hfits, rfl⟩

theorem calls_eq (h : s.Fits) (n : Nat) :
    s.cursor.calls n = .ok ((s.calls n).1, (s.calls n).2.cursor) ∧
      (s.calls n).2.Fits ∧ (s.calls n).2.source = s.source := by
  induction n generalizing s with
  | zero => exact ⟨rfl, h, rfl⟩
  | succ n ih =>
    obtain ⟨hrun, hfits, hsource⟩ := h.tokenize_eq
    obtain ⟨hcalls, hfits', hsource'⟩ := ih hfits
    refine ⟨?_, hfits', hsource'.trans hsource⟩
    simp only [Cursor.calls, hrun, Cursor.ok_bind, hcalls]
    rfl

end Fits

end Scanner

/-- However often a source is scanned, cutting it by byte offsets goes as scanning does, without a
fault, and the offset it stops at is a boundary. Every recognizer, wherever it is tried, takes
something and does not go past the end, or takes nothing. -/
theorem Source.cursor_faultless (source : Source) :
    (∀ n, let (results, stop) := (Scanner.ofSource source).calls n
      (Cursor.ofSource source).calls n = .ok (results, ⟨source, stop.position⟩) ∧
        Boundary source.text.toList stop.position ∧
        stop.position ≤ byteLength source.text.toList) ∧
    ∀ recognizer ∈ Cursor.recognizers, ∀ start,
      Cursor.Proper source.text.toList start (recognizer source.text.toList start) := by
  refine ⟨fun n => ?_, fun _ hmem => Cursor.proper_of_mem_recognizers hmem _⟩
  obtain ⟨hcalls, hfits, hsource⟩ := (Scanner.fits_ofSource source).calls_eq n
  have hsource' : ((Scanner.ofSource source).calls n).2.source = source := hsource
  rw [Scanner.Fits, hsource'] at hfits
  refine ⟨?_, hfits.boundary, hfits.le⟩
  rw [Scanner.cursor, Scanner.cursor, hsource'] at hcalls
  exact hcalls

end SqlScript

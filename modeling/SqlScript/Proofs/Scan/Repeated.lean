import SqlScript.Proofs.Scan.Cursor
import SqlScript.Proofs.Scan.Split

/-!
# Scanning a source again

After its first call a scanner stays where it is: behind the whole text, where there is nothing
left, or at the lexeme that failed, where the same failure is found again
(`Source.calls_stable`).
-/

namespace SqlScript

open Scanner Piece

namespace Scanner

/-- A scanner that a call leaves as it was gives the same thing at every call. -/
theorem calls_of_still {s : Scanner} {result : Except ScanError (List Token)}
    (h : s.tokenize = (result, s)) (n : Nat) : s.calls n = (.replicate n result, s) := by
  induction n with
  | zero => rfl
  | succ n ih => simp only [calls, h, ih, List.replicate_succ]

theorem calls_succ {s stop : Scanner} {result : Except ScanError (List Token)}
    (h : s.tokenize = (result, stop)) (n : Nat) :
    s.calls (n + 1) = (result :: (stop.calls n).1, (stop.calls n).2) := by
  simp only [calls, h]

end Scanner

namespace Source

variable {source : Source} {ps : List Piece} {w rest : List Char}

/-- A source with tokens is scanned up to its end. -/
theorem tokenize_of_split (h : Cut source.text.toList ps w []) :
    (ofSource source).tokenize =
      (.ok (Piece.tokens source 0 ps), ⟨source, byteLength source.text.toList, []⟩) := by
  have hend : byteLength source.text.toList = byteLength (join ps) + byteLength w := by
    rw [h.text_eq, List.append_nil, byteLength_append]
  rw [tokenize_of_cut h, List.append_nil, tokenize_blank h.blank, hend]
  simp [behind, Except.map]

/-- Otherwise the scanner is left where no lexeme begins, whatever place the failure tells. -/
theorem tokenize_of_stuck (h : Cut source.text.toList ps w rest) (hstuck : Stuck rest)
    {n : Nat} (hn : byteLength (join ps ++ w) = n) :
    (ofSource source).tokenize =
        (.error (.stuckAt source.text.toList n rest), ⟨source, n, rest⟩) ∧
      tokenize ⟨source, n, rest⟩ =
        (.error (.stuckAt source.text.toList n rest), ⟨source, n, rest⟩) := by
  obtain ⟨reason, hread⟩ := hstuck.error
  have hblank : Blank [] := by simp [Blank]
  have hoffset : byteLength (join ps) + byteLength w = n := by rw [← byteLength_append, hn]
  have htext : byteLength source.text.toList = n + byteLength rest := by
    rw [h.text_eq, byteLength_append, byteLength_append, ← hoffset, Nat.add_assoc]
  have hfailure : failure ⟨source, n, rest⟩ reason = .stuckAt source.text.toList n rest :=
    failure_eq_stuckAt htext hread
  constructor
  · rw [tokenize_of_cut h, tokenize_stuck h.blank hstuck.ne_nil hstuck.ends hread, hoffset,
      hfailure]
    rfl
  · have hagain : tokenize ⟨source, n, [] ++ rest⟩ = _ :=
      tokenize_stuck hblank hstuck.ne_nil hstuck.ends hread
    rwa [List.nil_append, byteLength_nil, Nat.add_zero, hfailure] at hagain

/-- A scanner that has given all tokens of a source gives none at any later call, and has come to
the end. One that has failed fails in the same way ever after: it stays behind the longest prefix
that splits into lexemes, even where the failure is said to be at the end of the source. -/
theorem calls_stable (source : Source) :
    match source.tokens with
    | .ok ts => ∀ n, (ofSource source).calls (n + 1) =
        (.ok ts :: .replicate n (.ok []), ⟨source, byteLength source.text.toList, []⟩)
    | .error e => ∃ ps w rest, Cut source.text.toList ps w rest ∧ rest ≠ [] ∧
        (∀ ps' w' rest', Cut source.text.toList ps' w' rest' → rest <:+ rest') ∧
        e = .stuckAt source.text.toList (byteLength (join ps ++ w)) rest ∧
        ∀ n, (ofSource source).calls (n + 1) =
          (.replicate (n + 1) (.error e), ⟨source, byteLength (join ps ++ w), rest⟩) := by
  obtain ⟨ps, w, rest, hcut, hrest⟩ := exists_cut source.text.toList
  rcases hrest with rfl | hstuck
  · rw [tokens_of_split hcut]
    intro n
    have hstill : tokenize ⟨source, byteLength source.text.toList, []⟩ = (.ok [], _) :=
      tokenize_blank (by simp [Blank])
    rw [calls_succ (tokenize_of_split hcut), calls_of_still hstill]
  · rw [tokens_of_stuck hcut hstuck]
    refine ⟨ps, w, rest, hcut, hstuck.ne_nil, fun _ _ _ => hcut.longest hstuck, rfl, fun n => ?_⟩
    obtain ⟨hfirst, hstill⟩ := tokenize_of_stuck hcut hstuck rfl
    rw [calls_succ hfirst, calls_of_still hstill, List.replicate_succ]

/-- An open quote is reported at the end of the source, and the scanner stays at the quote. -/
example :
    let source : Source := ⟨"", "a 'b"⟩
    let (results, stop) := (ofSource source).calls 2
    results.map Except.toOption = [none, none] ∧ stop.position = 2 ∧
      ScanError.stuckAt source.text.toList 2 stop.rest = ⟨4, "", .unterminatedString⟩ := by
  decide +kernel

end Source

end SqlScript

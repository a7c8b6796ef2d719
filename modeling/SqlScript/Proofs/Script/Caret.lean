import SqlScript.Proofs.Grammar.Numbered
import SqlScript.Proofs.Script.Compose
import SqlScript.Proofs.Text.Place

/-!
# Diagnostics point at their token

A token begins where a character begins, so the place of its offset is the place of its first
character: the line that a diagnostic shows has this character above the caret (`offsets_placed`).
-/

namespace SqlScript

open Place

/-- What a diagnostic shows: the line of the source that holds the beginning of its token, and a
caret below the first character of the token. -/
structure Diagnostic.PointsAt (d : Diagnostic) (source : Source) (p : Place) (row : List Char)
    (first : Char) : Prop where
  offset_eq : offset? source.text.toList p = some d.token.position
  line_eq : (source.text.toList.splitOn '\n')[p.line]? = some row
  first_eq : d.token.raw.toList.head? = some first
  column_eq : row[p.column]? = some first
  render_eq : d.render = source.file ++ ":" ++ toString p.line ++ "\n" ++ String.ofList row ++
    "\n" ++ String.ofList (List.replicate p.column ' ') ++ "^\nParse error: " ++ d.message

theorem readTokens_error_mem {depth : Nat} {ts : List Token} {e : SyntaxError}
    (h : (readTokens depth ts).2 = .error e) : e.token ∈ ts := by
  rcases @readTokens_of_kinds ts ts depth rfl rfl with ⟨trees, hok, -⟩ |
    ⟨i, t, -, cause, ht, -, herror, -⟩
  · rw [hok] at h
    cases h
  · rw [herror] at h
    cases h
    exact List.mem_of_getElem? ht

theorem readSource_error_mem {depth : Nat} {source : Source} {d : Diagnostic}
    (h : readSource depth source = .error (.read d)) :
    ∃ ts, source.tokens = .ok ts ∧ d.token ∈ ts := by
  rcases readSource_error_cases h with ⟨_, -, heq⟩ | ⟨ts, failure, hts, hread, heq⟩
  · cases heq
  · cases heq
    exact ⟨ts, hts, readTokens_error_mem hread⟩

/-- A token stands in one line, at least with its first character. -/
theorem Source.token_placed {source : Source} {ts : List Token} (h : source.tokens = .ok ts)
    {t : Token} (ht : t ∈ ts) :
    let text := source.text.toList
    let p := ofOffset text t.position
    offset? text p = some t.position ∧ ∃ first, t.raw.toList.head? = some first ∧
      (lineAt text t.position)[p.column]? = some first := by
  intro text p
  obtain ⟨-, before, after, htext, hposition, hspelled⟩ := token_spelled h ht
  obtain ⟨first, more, hraw, hblank⟩ := hspelled.exists_cons
  have hbreak : first ≠ '\n' := by
    rintro rfl
    exact absurd hblank (by decide)
  refine ⟨offset?_eq_some_iff.mpr ⟨⟨before, _, htext, hposition.symm⟩, rfl⟩, first, ?_, ?_⟩
  · rw [hraw, List.head?_cons]
  · rw [show p = endOf before by simp only [p, text, htext, hposition, ofOffset_byteLength],
      show text = _ from htext, hposition, lineAt_eq, endOf_eq, hraw]
    simp [hbreak]

/-- Lines and columns tell byte offsets apart and keep their order as long as a character begins
there or the text ends there; summing up the lines gives the offset back. All other offsets count as
the end of the text. The line is always one of the text, and the column lies within it: what stands
before the offset is cut between two characters, and so is what stands before its line. What a
diagnostic of a source points at is the first character of its token. -/
theorem offsets_placed :
    (∀ text p offset,
      offset? text p = some offset ↔ Boundary text offset ∧ ofOffset text offset = p) ∧
    (∀ text m n, Boundary text m → Boundary text n → m < n →
      (ofOffset text m).Before (ofOffset text n)) ∧
    (∀ text offset, byteLength text ≤ offset ∨ ¬ Boundary text offset →
      ofOffset text offset = ofOffset text (byteLength text)) ∧
    (∀ text offset, ∃ above start after, text = above ++ (start ++ after) ∧
      (cutAt offset text).1 = above ++ start ∧ above.getLast?.all (· = '\n') ∧ '\n' ∉ start ∧
      ofOffset text offset = ⟨above.count '\n', start.length⟩) ∧
    (∀ text offset, (text.splitOn '\n')[(ofOffset text offset).line]? = some (lineAt text offset) ∧
      (ofOffset text offset).column ≤ (lineAt text offset).length) ∧
    ∀ depth source d, readSource depth source = .error (.read d) →
      d.token.source = source ∧ ∃ p row first, d.PointsAt source p row first := by
  refine ⟨fun _ _ _ => offset?_eq_some_iff, fun _ _ _ => ofOffset_before, ?_, ofOffset_split,
    splitOn_ofOffset, ?_⟩
  · intro text offset h
    have hend : cutAt (byteLength text) text = (text, []) := by
      simpa using cutAt_byteLength text []
    by_cases hboundary : Boundary text offset
    · obtain ⟨before, after, rfl, rfl⟩ := hboundary
      rcases h with h | h
      · rw [byteLength_append] at h ⊢
        rw [show byteLength after = 0 by omega, Nat.add_zero]
      · exact absurd ⟨before, after, rfl, rfl⟩ h
    · rw [ofOffset, ofOffset, cutAt_of_not_boundary hboundary, hend]
  · intro depth source d h
    obtain ⟨ts, hts, hmem⟩ := readSource_error_mem h
    obtain ⟨hoffset, first, hfirst, hcolumn⟩ := Source.token_placed hts hmem
    have hsource := (Source.token_spelled hts hmem).1
    refine ⟨hsource, _, _, first, hoffset, (splitOn_ofOffset _ _).1, hfirst, hcolumn, ?_⟩
    rw [Diagnostic.render, hsource]

/-- A caret in the second line. The first line has a character of two bytes and ends with a carriage
return; the middle of this character counts as the end of the text. -/
theorem offsets_placed_second_line :
    let source : Source := ⟨"q.sql", "select 'é'\r\n  , from"⟩
    let text := source.text.toList
    ((ofOffset text 8).Before (ofOffset text 17) ∧
        ofOffset text 9 = ofOffset text (byteLength text)) ∧
      ∃ d row, readSource 1 source = .error (.read d) ∧ d.PointsAt source ⟨1, 4⟩ row 'f' ∧
        d.render = "q.sql:1\n  , from\n    ^\nParse error: Expression expected" := by
  intro source text
  obtain ⟨hplaces, hbefore, hend, -, -, hpoints⟩ := offsets_placed
  have hquoted : Boundary text 8 := boundary_iff.mpr (by decide +kernel)
  have hfrom : Boundary text 17 := boundary_iff.mpr (by decide +kernel)
  have hinside : ¬ Boundary text 9 := by
    rw [boundary_iff]
    decide +kernel
  have hread : (match readSource 1 source with
      | .error (.read d) => d.token.position == 17 && d.render ==
          "q.sql:1\n  , from\n    ^\nParse error: Expression expected"
      | _ => false) = true := by decide +kernel
  refine ⟨⟨hbefore text 8 17 hquoted hfrom (by decide), hend text 9 (.inr hinside)⟩, ?_⟩
  split at hread
  · next d hd =>
    obtain ⟨hposition, hrender⟩ := by simpa using hread
    obtain ⟨-, p, row, first, hd'⟩ := hpoints 1 source d hd
    have hp : p = ⟨1, 4⟩ := by
      rw [← ((hplaces text p _).mp hd'.offset_eq).2, hposition]
      decide +kernel
    subst hp
    have hrow : (text.splitOn '\n')[1]? = some "  , from".toList := by decide +kernel
    obtain rfl : row = "  , from".toList := Option.some.inj (hd'.line_eq.symm.trans hrow)
    obtain rfl : 'f' = first := Option.some.inj hd'.column_eq
    exact ⟨d, _, hd, hd', hrender⟩
  · cases hread

end SqlScript

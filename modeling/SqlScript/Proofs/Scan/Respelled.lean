import SqlScript.Proofs.Scan.Seam

/-!
# Other spellings and other blanks

A bare word may be written with other capitals and an inequality with the other symbol, and the
blanks around lexemes may be others. The tokens then are of the same kinds (`tokens_relaid`).
-/

namespace SqlScript

open Lexeme Scanner Piece

/-! ## Capitals -/

/-- What holds of a small letter and of its capital alike holds of a character and its capital
alike. -/
theorem apply_toUpper {p : Char → Bool}
    (hp : ∀ k < 123, 97 ≤ k → p (Char.ofNat k).toUpper = p (Char.ofNat k)) (c : Char) :
    p c.toUpper = p c := by
  by_cases hc : 'a'.val ≤ c.val ∧ c.val ≤ 'z'.val
  · have hlow : 97 ≤ c.toNat := hc.1
    have hhigh : c.toNat ≤ 122 := hc.2
    have := hp c.toNat (by omega) hlow
    rwa [Char.ofNat_toNat] at this
  · have hself : c.toUpper = c := dif_neg hc
    rw [hself]

theorem isWordStart_toUpper (c : Char) : isWordStart c.toUpper = isWordStart c :=
  apply_toUpper (by decide) c

theorem isWordPart_toUpper (c : Char) : isWordPart c.toUpper = isWordPart c :=
  apply_toUpper (by decide) c

/-! ## Lexemes -/

/-- A bare word with other capitals, the other symbol for inequality, or the same text. -/
inductive Respelled : List Char → List Char → Prop
  | same {raw} : Respelled raw raw
  | capitals {first more word} (hfirst : isWordStart first = true)
      (hmore : ∀ c ∈ more, isWordPart c = true)
      (h : word.map Char.toUpper = (first :: more).map Char.toUpper) :
      Respelled (first :: more) word
  | notEqual : Respelled ['<', '>'] ['!', '=']
  | lessGreater : Respelled ['!', '='] ['<', '>']

theorem Spelled.word_of_start {first : Char} {more rest : List Char} {kind : Kind}
    (h : Spelled (first :: more) kind rest) (hfirst : isWordStart first = true) :
    kind = .ofWord (String.ofList ((first :: more).map Char.toUpper)) := by
  obtain ⟨l, hl, hspell, rfl⟩ := recognize_of_spelled h
  rw [List.cons_append, recognize_wordStart hfirst] at hl
  obtain ⟨rfl, -⟩ := Prod.ext_iff.mp (Except.ok.inj hl)
  rw [← hspell]
  rfl

theorem Spelled.lessGreater_kind {kind : Kind} {rest : List Char}
    (h : Spelled ['<', '>'] kind rest) : kind = .symbol "!=" :=
  (h.deterministic (@Spelled.lessGreater rest) rfl).2.1

theorem Spelled.notEqual_kind {kind : Kind} {rest : List Char}
    (h : Spelled ['!', '='] kind rest) : kind = .symbol "!=" :=
  (h.deterministic (@Spelled.notEqual rest) rfl).2.1

/-- Another spelling of a lexeme is a lexeme of the same kind before a blank and at the end. -/
theorem Spelled.respelled {raw raw' rest rest' : List Char} {kind : Kind}
    (h : Spelled raw kind rest) (hraw : Respelled raw raw') (hseam : Seam rest') :
    Spelled raw' kind rest' := by
  cases hraw with
  | same => exact h.before (.inr hseam)
  | notEqual =>
    rw [h.lessGreater_kind]
    exact .notEqual
  | lessGreater =>
    rw [h.notEqual_kind]
    exact .lessGreater
  | @capitals first more _ hfirst hmore heq =>
    rw [h.word_of_start hfirst, ← heq]
    cases raw' with
    | nil => cases heq
    | cons d word =>
      obtain ⟨hd, hword⟩ := List.cons.inj heq
      refine .word ?_ (fun c hc => ?_) (hseam.ends (by decide) (by decide))
      · rw [← isWordStart_toUpper, hd, isWordStart_toUpper, hfirst]
      · have hmem : c.toUpper ∈ more.map Char.toUpper := hword ▸ List.mem_map_of_mem hc
        obtain ⟨c', hc', hupper⟩ := List.mem_map.mp hmem
        rw [← isWordPart_toUpper, ← hupper, isWordPart_toUpper, hmore c' hc']

/-! ## Texts -/

/-- The lexemes of tokens in other spellings, each followed by blanks. Between two of them there is
a blank at least. -/
inductive Respaced : List Token → List Char → Prop
  | nil : Respaced [] []
  | cons {t ts raw w text} (hraw : Respelled t.raw.toList raw) (hw : Blank w)
      (hgap : ts ≠ [] → w ≠ []) (more : Respaced ts text) :
      Respaced (t :: ts) (raw ++ (w ++ text))

/-- The lexemes of tokens in other spellings and with other blanks. -/
def Relaid (ts : List Token) (text : List Char) : Prop :=
  ∃ w body, Blank w ∧ text = w ++ body ∧ Respaced ts body

theorem seam_of_blank {w text : List Char} (hw : Blank w) (htext : w = [] → text = []) :
    Seam (w ++ text) := by
  cases w with
  | nil => simp [Seam, htext rfl]
  | cons c w =>
    have hc := hw c (by simp)
    simp [Seam, hc]

theorem Respaced.seam {ts : List Token} {w text : List Char} (h : Respaced ts text) (hw : Blank w)
    (hgap : ts ≠ [] → w ≠ []) : Seam (w ++ text) := by
  refine seam_of_blank hw fun hnil => ?_
  cases h with
  | nil => rfl
  | cons _ _ _ _ => exact (hgap (List.cons_ne_nil _ _) hnil).elim

/-- A text of the lexemes of pieces, in other spellings and with other blanks, is cut into pieces
of the same kinds. -/
theorem exists_cut_of_respaced {source : Source} {ps : List Piece} {n : Nat}
    {rest w body : List Char} (hps : Splits ps rest) (hw : Blank w)
    (hbody : Respaced (Piece.tokens source n ps) body) :
    ∃ qs w', Cut (w ++ body) qs w' [] ∧ qs.map Piece.kind = ps.map Piece.kind := by
  induction hps generalizing n w body with
  | nil =>
    cases hbody
    exact ⟨[], w, ⟨rfl, .nil, hw⟩, rfl⟩
  | @cons p ps rest hblanks hspelled _ ih =>
    cases hbody with
    | @cons _ _ raw w' text hraw hw' hgap more =>
      obtain ⟨qs, w'', hcut, hkinds⟩ := ih hw' more
      refine ⟨⟨w, raw, p.kind⟩ :: qs, w'', ⟨?_, .cons hw ?_ hcut.splits, hcut.blank⟩, ?_⟩
      · rw [join_cons, Piece.text, List.append_assoc, List.append_assoc, ← hcut.text_eq]
      · rw [← hcut.text_eq]
        exact hspelled.respelled (by simpa using hraw) (more.seam hw' hgap)
      · simp [hkinds]

/-- Spelling and blanks do not change the kinds of a source's tokens. -/
theorem Source.tokens_relaid {source source' : Source} {ts : List Token}
    (h : source.tokens = .ok ts) (hlaid : Relaid ts source'.text.toList) :
    ∃ us, source'.tokens = .ok us ∧ us.map Token.kind = ts.map Token.kind := by
  obtain ⟨ps, w, hcut, rfl⟩ := source.exists_split h
  obtain ⟨w', body, hw', htext, hbody⟩ := hlaid
  obtain ⟨qs, w'', hcut', hkinds⟩ := exists_cut_of_respaced hcut.splits hw' hbody
  rw [← htext] at hcut'
  exact ⟨_, tokens_of_split hcut', by rw [kinds_tokens, kinds_tokens, hkinds]⟩

end SqlScript

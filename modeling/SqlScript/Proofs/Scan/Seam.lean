import SqlScript.Proofs.Scan.Split

/-!
# Texts one after another

A semicolon or a blank continues no lexeme. A text that has tokens keeps them when such a character
stands behind it, and what follows is scanned as if it stood alone, only further on.
-/

namespace SqlScript

open Scanner Piece

/-- The same token in another source, `n` bytes further on. -/
def Token.moved (n : Nat) (source : Source) (t : Token) : Token :=
  { t with position := t.position + n, source }

def ScanError.moved (n : Nat) (e : ScanError) : ScanError := { e with position := e.position + n }

/-- What stands here ends every lexeme before it. -/
def Seam (rest : List Char) : Prop := ∀ c ∈ rest.head?, c = ';' ∨ isBlank c = true

theorem Seam.ends {rest : List Char} (h : Seam rest) {p : Char → Bool} (hsemicolon : p ';' = false)
    (hblank : ∀ k < 33, p (Char.ofNat k) = false) : Ends p rest := by
  intro c hc
  rcases h c hc with rfl | hc
  · exact hsemicolon
  · exact of_isBlank hblank hc

/-- A lexeme remains one with the same character behind it, or with a seam. -/
theorem Spelled.before {raw rest rest' : List Char} {kind : Kind} (h : Spelled raw kind rest)
    (hrest : rest'.head? = rest.head? ∨ Seam rest') : Spelled raw kind rest' := by
  -- every condition of a form on what follows is of this kind
  have hends : ∀ {p : Char → Bool}, Ends p rest → p ';' = false →
      (∀ k < 33, p (Char.ofNat k) = false) → Ends p rest' := by
    intro p hp hsemicolon hblank
    rcases hrest with hsame | hseam
    · rwa [Ends, hsame]
    · exact hseam.ends hsemicolon hblank
  cases h with
  | integer hne hdigits h => exact .integer hne hdigits (hends h (by decide) (by decide))
  | decimal hne hwhole hfraction h =>
    exact .decimal hne hwhole hfraction (hends h (by decide) (by decide))
  | string h => exact .string (hends h (by decide) (by decide))
  | quoted hname => exact .quoted hname
  | mark hc => exact .mark hc
  | less h => exact .less (hends h (by decide) (by decide))
  | greater h => exact .greater (hends h (by decide) (by decide))
  | lessEqual => exact .lessEqual
  | greaterEqual => exact .greaterEqual
  | lessGreater => exact .lessGreater
  | notEqual => exact .notEqual
  | keyword hfirst hmore h hword =>
    exact .keyword hfirst hmore (hends h (by decide) (by decide)) hword
  | name hfirst hmore h hword => exact .name hfirst hmore (hends h (by decide) (by decide)) hword

theorem Splits.before_seam {ps : List Piece} {rest behind : List Char} (h : Splits ps rest)
    (hseam : Seam behind) : Splits ps (rest ++ behind) := by
  induction h with
  | nil => exact .nil
  | @cons p ps rest hblanks hspelled _ ih =>
    refine .cons hblanks (hspelled.before ?_) ih
    rw [← List.append_assoc]
    cases join ps ++ rest with
    | nil => exact .inr hseam
    | cons c cs => exact .inl rfl

/-! ## Scanning elsewhere -/

theorem tokens_moved (source source' : Source) (n k : Nat) (ps : List Piece) :
    Piece.tokens source' (n + k) ps = (Piece.tokens source n ps).map (Token.moved k source') := by
  induction ps generalizing n with
  | nil => rfl
  | cons p ps ih =>
    have hblanks : n + k + byteLength p.blanks = n + byteLength p.blanks + k := by omega
    have htext : n + k + byteLength p.text = n + byteLength p.text + k := by omega
    rw [Piece.tokens, Piece.tokens, hblanks, htext, ih]
    rfl

/-- The outcome of scanning, in another source and `k` bytes further on. -/
def relocate (k : Nat) (source : Source) :
    Except ScanError (List Token) → Except ScanError (List Token)
  | .ok ts => .ok (ts.map (Token.moved k source))
  | .error e => .error (e.moved k)

theorem failure_moved (source source' : Source) (n k : Nat) (rest : List Char)
    (reason : ScanReason) :
    Scanner.failure ⟨source', n + k, rest⟩ reason =
      (Scanner.failure ⟨source, n, rest⟩ reason).moved k := by
  have hend : n + k + byteLength rest = n + byteLength rest + k := by omega
  cases reason <;> simp [Scanner.failure, ScanError.moved, hend]

/-- Scanning a text goes the same way wherever it stands. -/
theorem tokenize_moved (source source' : Source) (n k : Nat) (text : List Char) :
    (tokenize ⟨source', n + k, text⟩).1 = relocate k source' (tokenize ⟨source, n, text⟩).1 := by
  obtain ⟨ps, w, rest, hcut, hrest⟩ := exists_cut text
  have hjoin : n + k + byteLength (join ps) = n + byteLength (join ps) + k := by omega
  rw [hcut.text_eq, tokenize_pieces hcut.splits, tokenize_pieces hcut.splits, hjoin,
    tokens_moved source]
  rcases hrest with rfl | hstuck
  · rw [List.append_nil, tokenize_blank hcut.blank, tokenize_blank hcut.blank]
    simp [behind, relocate, Except.map]
  · obtain ⟨reason, hread⟩ := hstuck.error
    have hblank : n + byteLength (join ps) + k + byteLength w =
        n + byteLength (join ps) + byteLength w + k := by omega
    rw [tokenize_stuck hcut.blank hstuck.ne_nil hstuck.ends hread,
      tokenize_stuck hcut.blank hstuck.ne_nil hstuck.ends hread, hblank,
      failure_moved source source']
    rfl

/-! ## Behind a source that has tokens -/

namespace Source

variable {before after whole : Source} {ts : List Token}

/-- A source that has tokens keeps them before a seam, and scanning goes on from there. -/
theorem tokenize_seam (h : before.tokens = .ok ts) (whole : Source) {rest : List Char}
    (hseam : Seam rest) :
    tokenize ⟨whole, 0, before.text.toList ++ rest⟩ =
      behind (ts.map (Token.moved 0 whole))
        (tokenize ⟨whole, byteLength before.text.toList, rest⟩) := by
  obtain ⟨ps, w, hcut, rfl⟩ := before.exists_split h
  have hsplits := hcut.splits
  have hmoved := tokens_moved before whole 0 0 ps
  rw [List.append_nil] at hsplits
  rw [hcut.text_eq, List.append_nil, List.append_assoc, tokenize_pieces (hsplits.before_seam hseam),
    tokenize_skip hcut.blank, Nat.zero_add, byteLength_append, ← hmoved]

theorem tokens_semicolon (h : before.tokens = .ok ts)
    (htext : whole.text = before.text ++ ";" ++ after.text) :
    whole.tokens = (relocate (byteLength before.text.toList + 1) whole after.tokens).map fun us =>
      ts.map (Token.moved 0 whole) ++
        ⟨.symbol ";", ";", byteLength before.text.toList, whole⟩ :: us := by
  have hchars : whole.text.toList = before.text.toList ++ ';' :: after.text.toList := by
    simp [htext]
  have hseam : Seam (';' :: after.text.toList) := by simp [Seam]
  have hblank : Blank [] := by simp [Blank]
  have hfirst : ∀ n, tokenize ⟨whole, n, ';' :: after.text.toList⟩ =
      behind [⟨.symbol ";", ";", n, whole⟩] (tokenize ⟨whole, n + 1, after.text.toList⟩) :=
    fun n => tokenize_lexeme hblank (Spelled.mark (c := ';') (by decide))
  have hmoved := tokenize_moved after whole 0 (byteLength before.text.toList + 1) after.text.toList
  rw [Nat.zero_add] at hmoved
  rw [tokens, ofSource, hchars, tokenize_seam h whole hseam, hfirst, behind_behind, behind, hmoved]
  simp only [List.append_assoc]
  rfl

theorem tokens_blanks {w : String} (h : before.tokens = .ok ts) (hw : Blank w.toList)
    (hne : w ≠ "") (htext : whole.text = before.text ++ w ++ after.text) :
    whole.tokens =
      (relocate (byteLength (before.text ++ w).toList) whole after.tokens).map fun us =>
        ts.map (Token.moved 0 whole) ++ us := by
  have hchars : whole.text.toList = before.text.toList ++ (w.toList ++ after.text.toList) := by
    simp [htext]
  have hseam : Seam (w.toList ++ after.text.toList) := by
    obtain ⟨c, cs, hcs⟩ := List.exists_cons_of_ne_nil (by simpa using hne : w.toList ≠ [])
    have hc := hw c (by simp [hcs])
    simp [Seam, hcs, hc]
  have hmoved := tokenize_moved after whole 0 (byteLength (before.text ++ w).toList)
    after.text.toList
  rw [Nat.zero_add] at hmoved
  rw [tokens, ofSource, hchars, tokenize_seam h whole hseam, tokenize_skip hw, ← byteLength_append,
    ← String.toList_append, behind, hmoved]
  rfl

end Source

end SqlScript

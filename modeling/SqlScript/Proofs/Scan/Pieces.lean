import SqlScript.Proofs.Scan.Lexical
import SqlScript.Scanner

/-!
# Texts as pieces

A piece is a lexeme with the blanks before it. `Splits` says that every lexeme of a row of pieces is
maximal in front of what stands behind it. A text is cut into pieces in one way only, up to where
the cutting stops (`Splits.comparable`), and the scanner takes off the pieces that are there one by
one (`tokenize_pieces`).
-/

namespace SqlScript

open Scanner

/-- A run of blanks, which may be empty. -/
def Blank (text : List Char) : Prop := ∀ c ∈ text, isBlank c = true

structure Piece where
  blanks : List Char
  raw : List Char
  kind : Kind

namespace Piece

def text (p : Piece) : List Char := p.blanks ++ p.raw

def join (ps : List Piece) : List Char := ps.flatMap text

/-- The tokens of pieces that begin at a byte offset of a source. -/
def tokens (source : Source) : Nat → List Piece → List Token
  | _, [] => []
  | n, p :: ps =>
    ⟨p.kind, String.ofList p.raw, n + byteLength p.blanks, source⟩ ::
      tokens source (n + byteLength p.text) ps

theorem kinds_tokens (source : Source) (n : Nat) (ps : List Piece) :
    (tokens source n ps).map Token.kind = ps.map kind := by
  induction ps generalizing n with
  | nil => rfl
  | cons p ps ih => simp [tokens, ih]

@[simp] theorem join_nil : join [] = [] := rfl

@[simp] theorem join_cons (p : Piece) (ps : List Piece) : join (p :: ps) = p.text ++ join ps := rfl

@[simp] theorem join_append (ps qs : List Piece) : join (ps ++ qs) = join ps ++ join qs :=
  List.flatMap_append

end Piece

open Piece

/-- Pieces in front of a rest, every lexeme maximal where it stands. -/
inductive Splits : List Piece → List Char → Prop
  | nil {rest} : Splits [] rest
  | cons {p ps rest} (hblanks : Blank p.blanks) (hspelled : Spelled p.raw p.kind (join ps ++ rest))
      (more : Splits ps rest) : Splits (p :: ps) rest

theorem splits_cons {p : Piece} {ps : List Piece} {rest : List Char} :
    Splits (p :: ps) rest ↔
      Blank p.blanks ∧ Spelled p.raw p.kind (join ps ++ rest) ∧ Splits ps rest := by
  constructor
  · intro h
    cases h with
    | cons hblanks hspelled more => exact ⟨hblanks, hspelled, more⟩
  · rintro ⟨hblanks, hspelled, more⟩
    exact .cons hblanks hspelled more

theorem splits_append {ps qs : List Piece} {rest : List Char} :
    Splits (ps ++ qs) rest ↔ Splits ps (join qs ++ rest) ∧ Splits qs rest := by
  induction ps with
  | nil => exact ⟨fun h => ⟨.nil, h⟩, And.right⟩
  | cons p ps ih =>
    rw [List.cons_append, splits_cons, splits_cons, ih, join_append, List.append_assoc, and_assoc,
      and_assoc]

/-! ## One way of cutting -/

/-- What none of the characters up to the space is, no blank is. -/
theorem of_isBlank {p : Char → Bool} (hp : ∀ k < 33, p (Char.ofNat k) = false) {c : Char}
    (hc : isBlank c = true) : p c = false := by
  have hle : c.toNat ≤ 32 := of_decide_eq_true hc
  rw [← Char.ofNat_toNat c]
  exact hp c.toNat (by omega)

theorem isBlank_eq_false {p : Char → Bool} (hp : ∀ k < 33, p (Char.ofNat k) = false) {c : Char}
    (hc : p c = true) : isBlank c = false := by
  cases hblank : isBlank c with
  | false => rfl
  | true => rw [of_isBlank hp hblank] at hc; cases hc

/-- A lexeme is not blank in front. -/
theorem Spelled.exists_cons {raw rest : List Char} {kind : Kind} (h : Spelled raw kind rest) :
    ∃ c more, raw = c :: more ∧ isBlank c = false := by
  have hdigit : ∀ c : Char, c.isDigit = true → isBlank c = false :=
    fun c => isBlank_eq_false (by decide)
  cases h with
  | integer hne hdigits _ =>
    obtain ⟨c, digits, rfl⟩ := List.exists_cons_of_ne_nil hne
    exact ⟨c, digits, rfl, hdigit c (hdigits c (by simp))⟩
  | decimal hne hwhole _ _ =>
    obtain ⟨c, whole, rfl⟩ := List.exists_cons_of_ne_nil hne
    exact ⟨c, _, rfl, hdigit c (hwhole c (by simp))⟩
  | string _ => exact ⟨_, _, rfl, by decide⟩
  | quoted _ => exact ⟨_, _, rfl, by decide⟩
  | mark hc =>
    refine ⟨_, _, rfl, ?_⟩
    simp only [List.mem_cons, List.not_mem_nil, or_false] at hc
    rcases hc with rfl | rfl | rfl | rfl | rfl | rfl | rfl | rfl | rfl | rfl <;> decide
  | keyword hfirst _ _ _ | name hfirst _ _ _ =>
    exact ⟨_, _, rfl, isBlank_eq_false (by decide) hfirst⟩
  | _ => exact ⟨_, _, rfl, by decide⟩

theorem Spelled.deterministic {raw raw' rest rest' : List Char} {kind kind' : Kind}
    (h : Spelled raw kind rest) (h' : Spelled raw' kind' rest')
    (heq : raw ++ rest = raw' ++ rest') :
    raw = raw' ∧ kind = kind' ∧ rest = rest' := by
  obtain ⟨l, hl, rfl, rfl⟩ := Lexeme.recognize_of_spelled h
  obtain ⟨l', hl', rfl, rfl⟩ := Lexeme.recognize_of_spelled h'
  rw [heq, hl'] at hl
  cases hl
  exact ⟨rfl, rfl, rfl⟩

theorem Spelled.ends_append {raw rest more : List Char} {kind : Kind} (h : Spelled raw kind rest) :
    Ends isBlank (raw ++ more) := by
  obtain ⟨c, cs, rfl, hc⟩ := h.exists_cons
  exact ends_cons.mpr hc

/-- Of two ways to cut pieces off one text, one goes on where the other stops. -/
theorem Splits.comparable {ps qs : List Piece} {rest rest' : List Char} (hps : Splits ps rest)
    (hqs : Splits qs rest') (heq : join ps ++ rest = join qs ++ rest') :
    (∃ more, qs = ps ++ more ∧ rest = join more ++ rest') ∨
      ∃ more, ps = qs ++ more ∧ rest' = join more ++ rest := by
  induction hps generalizing qs with
  | nil => exact .inl ⟨qs, rfl, heq⟩
  | @cons p ps rest hblanks hspelled more ih =>
    cases hqs with
    | nil => exact .inr ⟨p :: ps, rfl, heq.symm⟩
    | @cons q qs _ hblanks' hspelled' more' =>
      simp only [join_cons, Piece.text, List.append_assoc] at heq
      obtain ⟨hw, heq⟩ := append_inj_of_ends hblanks hblanks' hspelled.ends_append
        hspelled'.ends_append heq
      obtain ⟨hraw, hkind, hbehind⟩ := hspelled.deterministic hspelled' heq
      obtain rfl : p = q := by
        cases p
        cases q
        simp_all
      rcases ih more' hbehind with ⟨others, rfl, hrest⟩ | ⟨others, rfl, hrest⟩
      · exact .inl ⟨others, rfl, hrest⟩
      · exact .inr ⟨others, rfl, hrest⟩

/-! ## The scanner -/

namespace Scanner

/-- What scanning comes to behind tokens that have been taken off already. -/
def behind (ts : List Token) (r : Except ScanError (List Token) × Scanner) :
    Except ScanError (List Token) × Scanner :=
  (r.1.map (ts ++ ·), r.2)

theorem behind_nil (r : Except ScanError (List Token) × Scanner) : behind [] r = r := by
  obtain ⟨_ | ts, stop⟩ := r <;> rfl

theorem behind_behind (ts us : List Token) (r : Except ScanError (List Token) × Scanner) :
    behind ts (behind us r) = behind (ts ++ us) r := by
  obtain ⟨_ | found, stop⟩ := r
  · rfl
  · simp [behind, Except.map]

variable {source : Source} {n : Nat} {w rest : List Char}

theorem skipBlanks_of (hw : Blank w) (hrest : Ends isBlank rest) :
    (⟨source, n, w ++ rest⟩ : Scanner).skipBlanks = ⟨source, n + byteLength w, rest⟩ := by
  simp only [skipBlanks, advance, takeWhile_of_ends hw hrest, dropWhile_of_ends hw hrest]

theorem tokenize_of_nil {s : Scanner} (h : s.skipBlanks.rest = []) :
    s.tokenize = (.ok [], s.skipBlanks) := by
  have hempty : s.skipBlanks.rest.isEmpty = true := by rw [h]; rfl
  rw [tokenize]
  simp only [if_pos hempty]

theorem tokenize_of_ok {s : Scanner} {l : Lexeme}
    (h : Lexeme.recognize s.skipBlanks.rest = .ok (l, rest)) :
    s.tokenize = behind [s.skipBlanks.token l] (s.skipBlanks.advance l.spell rest).tokenize := by
  have hne : ¬ s.skipBlanks.rest.isEmpty = true := by
    intro hempty
    rw [List.isEmpty_iff.mp hempty] at h
    cases h
  rw [tokenize]
  simp only [if_neg hne]
  split
  · next herror => cases h.symm.trans herror
  · next hok =>
    cases h.symm.trans hok
    cases (s.skipBlanks.advance l.spell rest).tokenize with
    | mk result stop => cases result <;> rfl

theorem tokenize_of_error {s : Scanner} {reason : ScanReason} (hne : s.skipBlanks.rest ≠ [])
    (h : Lexeme.recognize s.skipBlanks.rest = .error reason) :
    s.tokenize = (.error (s.skipBlanks.failure reason), s.skipBlanks) := by
  have hempty : ¬ s.skipBlanks.rest.isEmpty = true := by simpa using hne
  rw [tokenize]
  simp only [if_neg hempty]
  split
  · next herror =>
    cases h.symm.trans herror
    rfl
  · next hok => cases h.symm.trans hok

/-- Blanks alone are no tokens. -/
theorem tokenize_blank (hw : Blank w) :
    tokenize ⟨source, n, w⟩ = (.ok [], ⟨source, n + byteLength w, []⟩) := by
  have hskip : (⟨source, n, w⟩ : Scanner).skipBlanks = ⟨source, n + byteLength w, []⟩ := by
    simpa using skipBlanks_of hw ends_nil
  rw [tokenize_of_nil (by rw [hskip]), hskip]

/-- Blanks before a text only move it. -/
theorem tokenize_skip (hw : Blank w) (text : List Char) :
    tokenize ⟨source, n, w ++ text⟩ = tokenize ⟨source, n + byteLength w, text⟩ := by
  have hskip : (⟨source, n, w ++ text⟩ : Scanner).skipBlanks =
      (⟨source, n + byteLength w, text⟩ : Scanner).skipBlanks := by
    simp only [skipBlanks, advance, List.takeWhile_append_of_pos hw,
      List.dropWhile_append_of_pos hw, byteLength_append, Nat.add_assoc]
  -- `tokenize` looks at nothing before it has skipped the blanks
  by_cases hnil : (⟨source, n + byteLength w, text⟩ : Scanner).skipBlanks.rest = []
  · rw [tokenize_of_nil hnil, tokenize_of_nil (hskip ▸ hnil), hskip]
  · cases hread : Lexeme.recognize (⟨source, n + byteLength w, text⟩ : Scanner).skipBlanks.rest with
    | error reason =>
      rw [tokenize_of_error hnil hread, tokenize_of_error (hskip ▸ hnil) (hskip ▸ hread), hskip]
    | ok found => rw [tokenize_of_ok hread, tokenize_of_ok (hskip ▸ hread), hskip]

theorem tokenize_lexeme {raw : List Char} {kind : Kind} (hw : Blank w)
    (hraw : Spelled raw kind rest) :
    tokenize ⟨source, n, w ++ (raw ++ rest)⟩ =
      behind [⟨kind, String.ofList raw, n + byteLength w, source⟩]
        (tokenize ⟨source, n + byteLength w + byteLength raw, rest⟩) := by
  obtain ⟨l, hl, rfl, rfl⟩ := Lexeme.recognize_of_spelled hraw
  have hskip : (⟨source, n, w ++ (l.spell ++ rest)⟩ : Scanner).skipBlanks =
      ⟨source, n + byteLength w, l.spell ++ rest⟩ := skipBlanks_of hw hraw.ends_append
  rw [tokenize_of_ok (by rw [hskip]; exact hl), hskip]
  rfl

theorem tokenize_stuck {reason : ScanReason} (hw : Blank w) (hne : rest ≠ [])
    (hends : Ends isBlank rest) (hrest : Lexeme.recognize rest = .error reason) :
    tokenize ⟨source, n, w ++ rest⟩ =
      (.error (failure ⟨source, n + byteLength w, rest⟩ reason),
        ⟨source, n + byteLength w, rest⟩) := by
  have hskip : (⟨source, n, w ++ rest⟩ : Scanner).skipBlanks = ⟨source, n + byteLength w, rest⟩ :=
    skipBlanks_of hw hends
  rw [tokenize_of_error (by rw [hskip]; exact hne) (by rw [hskip]; exact hrest), hskip]

/-- Pieces at the front of a text are the first tokens, and scanning goes on behind them. -/
theorem tokenize_pieces {ps : List Piece} (h : Splits ps rest) :
    tokenize ⟨source, n, join ps ++ rest⟩ =
      behind (Piece.tokens source n ps) (tokenize ⟨source, n + byteLength (join ps), rest⟩) := by
  induction h generalizing n with
  | nil => rw [join_nil, List.nil_append, Piece.tokens, behind_nil]; rfl
  | @cons p ps rest hblanks hspelled _ ih =>
    rw [join_cons, Piece.text, List.append_assoc, List.append_assoc,
      tokenize_lexeme hblanks hspelled, ih, behind_behind, byteLength_append, byteLength_append,
      Piece.tokens, Piece.text, byteLength_append, Nat.add_assoc, Nat.add_assoc]
    rfl

end Scanner

end SqlScript

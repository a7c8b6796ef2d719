import SqlScript.Proofs.Scan.Pieces

/-!
# A source has tokens exactly if it splits into lexemes

The tokens are then the lexemes of the only split. Otherwise scanning fails where the longest
prefix that splits ends.
-/

namespace SqlScript

open Scanner Piece

/-- A text as pieces and blanks, up to a rest. With nothing left it is a split of the text. -/
structure Cut (text : List Char) (ps : List Piece) (w rest : List Char) : Prop where
  text_eq : text = join ps ++ (w ++ rest)
  splits : Splits ps (w ++ rest)
  blank : Blank w

/-- No lexeme begins here, and no blank. -/
structure Stuck (rest : List Char) : Prop where
  ne_nil : rest ≠ []
  ends : Ends isBlank rest
  error : ∃ reason, Lexeme.recognize rest = .error reason

/-- Every text can be cut up to its end or up to where no lexeme begins. -/
theorem exists_cut (text : List Char) :
    ∃ ps w rest, Cut text ps w rest ∧ (rest = [] ∨ Stuck rest) := by
  have hblank : Blank (text.takeWhile isBlank) := fun c => of_mem_takeWhile
  have htext := (List.takeWhile_append_dropWhile (p := isBlank) (l := text)).symm
  cases hread : Lexeme.recognize (text.dropWhile isBlank) with
  | error reason =>
    refine ⟨[], text.takeWhile isBlank, text.dropWhile isBlank, ⟨htext, .nil, hblank⟩, ?_⟩
    by_cases hnil : text.dropWhile isBlank = []
    · exact .inl hnil
    · exact .inr ⟨hnil, ends_dropWhile, reason, hread⟩
  | ok found =>
    obtain ⟨l, behind⟩ := found
    have hlt := Lexeme.length_lt_of_recognize hread
    have hle := (List.dropWhile_sublist isBlank (l := text)).length_le
    obtain ⟨ps, w, rest, hcut, hrest⟩ := exists_cut behind
    have hspelled := Lexeme.spelled_of_recognize hread
    rw [hcut.text_eq] at hspelled
    refine ⟨⟨text.takeWhile isBlank, l.spell, l.kind⟩ :: ps, w, rest,
      ⟨?_, .cons hblank hspelled hcut.splits, hcut.blank⟩, hrest⟩
    rw [join_cons, Piece.text, List.append_assoc, List.append_assoc, ← hcut.text_eq,
      Lexeme.spell_append_of_recognize hread]
    exact htext
termination_by text.length
decreasing_by omega

/-! ## Where cutting stops -/

theorem Splits.eq_nil_of_blank {ps : List Piece} {rest : List Char} (h : Splits ps rest)
    (hblank : Blank (join ps ++ rest)) : ps = [] := by
  cases h with
  | nil => rfl
  | @cons p ps _ _ hspelled _ =>
    obtain ⟨c, more, hraw, hc⟩ := hspelled.exists_cons
    have := hblank c (by simp [Piece.text, hraw])
    simp [hc] at this

/-- No blanks reach into a rest that does not begin with one. -/
theorem suffix_of_blank {before w rest rest' : List Char} (hw : Blank w) (hends : Ends isBlank rest)
    (h : w ++ rest' = before ++ rest) : rest <:+ rest' := by
  rcases List.append_eq_append_iff.mp h with ⟨m, -, hrest⟩ | ⟨m, hw', hrest⟩
  · exact ⟨m, hrest.symm⟩
  · cases m with
    | nil => exact ⟨[], hrest⟩
    | cons c m =>
      have hblank : isBlank c = true := hw c (by simp [hw'])
      rw [hrest, List.cons_append, ends_cons, hblank] at hends
      cases hends

theorem Stuck.not_spelled {raw kind following} (h : Stuck (raw ++ following)) :
    ¬ Spelled raw kind following := by
  intro hspelled
  obtain ⟨reason, herror⟩ := h.error
  obtain ⟨l, hl, -⟩ := Lexeme.recognize_of_spelled hspelled
  cases herror.symm.trans hl

/-- Nothing can be cut off beyond where no lexeme begins. -/
theorem Cut.longest {text w w' rest rest' : List Char} {ps ps' : List Piece}
    (h : Cut text ps w rest) (hstuck : Stuck rest) (h' : Cut text ps' w' rest') :
    rest <:+ rest' := by
  rcases h.splits.comparable h'.splits (h.text_eq.symm.trans h'.text_eq) with
    ⟨more, hps, heq⟩ | ⟨more, hps, heq⟩
  · cases more with
    | nil => exact suffix_of_blank h'.blank hstuck.ends heq.symm
    -- a piece more would begin with a lexeme, where none begins
    | cons q qs =>
      have hqs := h'.splits
      rw [hps, splits_append, splits_cons] at hqs
      obtain ⟨-, hblanks, hspelled, -⟩ := hqs
      rw [join_cons, Piece.text, List.append_assoc, List.append_assoc] at heq
      obtain ⟨-, rfl⟩ := append_inj_of_ends h.blank hblanks hstuck.ends hspelled.ends_append heq
      exact (hstuck.not_spelled hspelled).elim
  · rw [← List.append_assoc] at heq
    exact suffix_of_blank h'.blank hstuck.ends heq

/-- Behind the last lexeme of a text there are only blanks. -/
theorem Cut.no_more {text w w' : List Char} {ps more : List Piece} (hw : Blank w)
    (h : Cut text (ps ++ more) w' []) (heq : w ++ [] = join more ++ (w' ++ [])) :
    more = [] ∧ w = w' := by
  have hmore := (splits_append.mp h.splits).2
  have hnil : more = [] := hmore.eq_nil_of_blank (by rwa [← heq, List.append_nil])
  rw [hnil] at heq
  exact ⟨hnil, by simpa using heq⟩

theorem Cut.unique {text w w' : List Char} {ps ps' : List Piece} (h : Cut text ps w [])
    (h' : Cut text ps' w' []) : ps = ps' ∧ w = w' := by
  rcases h.splits.comparable h'.splits (h.text_eq.symm.trans h'.text_eq) with
    ⟨more, rfl, heq⟩ | ⟨more, rfl, heq⟩
  · obtain ⟨rfl, rfl⟩ := h'.no_more h.blank heq
    exact ⟨(List.append_nil ps).symm, rfl⟩
  · obtain ⟨rfl, rfl⟩ := h.no_more h'.blank heq
    exact ⟨List.append_nil ps', rfl⟩

/-! ## What scanning comes to -/

/-- The failure of a text at an offset where `rest` stands. An open quote runs to the end. -/
def ScanError.stuckAt (text : List Char) (offset : Nat) (rest : List Char) : ScanError :=
  if rest.head? = some '\'' then ⟨byteLength text, "", .unterminatedString⟩
  else if rest.head? = some '"' then ⟨byteLength text, "", .unterminatedName⟩
  else ⟨offset, String.ofList rest, .unexpectedCharacter⟩

theorem failure_eq_stuckAt {source : Source} {position : Nat} {text rest : List Char}
    {reason : ScanReason} (htext : byteLength text = position + byteLength rest)
    (h : Lexeme.recognize rest = .error reason) :
    Scanner.failure ⟨source, position, rest⟩ reason = .stuckAt text position rest := by
  revert h
  fun_cases Lexeme.recognize rest with
  | case1 => intro h; cases h; rfl
  | case2 input =>
    intro h
    unfold Lexeme.readString at h
    split at h <;> cases h
    rw [Scanner.failure, ← htext]
    · rfl
    · intro heq; cases heq
  | case3 input =>
    intro h
    unfold Lexeme.readQuoted at h
    split at h <;> cases h
    rw [Scanner.failure, ← htext]
    · rfl
    · intro heq; cases heq
  | case4 => intro h; cases h
  | case5 => intro h; cases h
  | case6 => intro h; cases h
  | case7 c input hstring hquoted =>
    intro h
    cases h
    rw [Scanner.failure, ScanError.stuckAt, if_neg (by simpa using hstring),
      if_neg (by simpa using hquoted)]

theorem Splits.token_spelled {source : Source} {ps : List Piece} {rest : List Char}
    (h : Splits ps rest) {n : Nat} {t : Token} (ht : t ∈ Piece.tokens source n ps) :
    t.source = source ∧ ∃ before after, join ps ++ rest = before ++ (t.raw.toList ++ after) ∧
      t.position = n + byteLength before ∧ Spelled t.raw.toList t.kind after := by
  induction h generalizing n with
  | nil => cases ht
  | @cons p ps rest _ hspelled _ ih =>
    rcases List.mem_cons.mp ht with rfl | ht
    · exact ⟨rfl, p.blanks, join ps ++ rest, by simp [Piece.text], rfl, by simpa using hspelled⟩
    · obtain ⟨hsource, before, after, htext, hposition, hspelled⟩ := ih ht
      refine ⟨hsource, p.text ++ before, after, ?_, ?_, hspelled⟩
      · rw [join_cons, List.append_assoc, htext, List.append_assoc]
      · rw [hposition, byteLength_append, Nat.add_assoc]

namespace Source

variable {source : Source} {ps : List Piece} {w rest : List Char}

theorem tokenize_of_cut (h : Cut source.text.toList ps w rest) :
    (ofSource source).tokenize = behind (Piece.tokens source 0 ps)
      (tokenize ⟨source, byteLength (join ps), w ++ rest⟩) := by
  rw [ofSource, h.text_eq, tokenize_pieces h.splits, Nat.zero_add]

theorem tokens_of_split (h : Cut source.text.toList ps w []) :
    source.tokens = .ok (Piece.tokens source 0 ps) := by
  rw [tokens, tokenize_of_cut h, List.append_nil, tokenize_blank h.blank]
  simp [behind, Except.map]

theorem tokens_of_stuck (h : Cut source.text.toList ps w rest) (hstuck : Stuck rest) :
    source.tokens = .error (.stuckAt source.text.toList (byteLength (join ps ++ w)) rest) := by
  obtain ⟨reason, hread⟩ := hstuck.error
  have htext : byteLength source.text.toList =
      byteLength (join ps) + byteLength w + byteLength rest := by
    rw [h.text_eq, byteLength_append, byteLength_append]
    omega
  rw [tokens, tokenize_of_cut h, tokenize_stuck h.blank hstuck.ne_nil hstuck.ends hread,
    failure_eq_stuckAt htext hread, ← byteLength_append]
  rfl

/-- Tokens that are found by computing. -/
theorem tokens_of_toOption {ts : List Token} (h : source.tokens.toOption = some ts) :
    source.tokens = .ok ts := by
  cases htokens : source.tokens with
  | error e => simp [htokens, Except.toOption] at h
  | ok us => simpa [htokens, Except.toOption] using h

theorem exists_split {ts : List Token} (h : source.tokens = .ok ts) :
    ∃ ps w, Cut source.text.toList ps w [] ∧ ts = Piece.tokens source 0 ps := by
  obtain ⟨ps, w, rest, hcut, hrest⟩ := exists_cut source.text.toList
  rcases hrest with rfl | hstuck
  · rw [tokens_of_split hcut] at h
    exact ⟨ps, w, hcut, (Except.ok.inj h).symm⟩
  · rw [tokens_of_stuck hcut hstuck] at h
    cases h

/-- Every token is a lexeme where it stands. -/
theorem token_spelled {ts : List Token} (h : source.tokens = .ok ts) {t : Token} (ht : t ∈ ts) :
    t.source = source ∧ ∃ before after, source.text.toList = before ++ (t.raw.toList ++ after) ∧
      t.position = byteLength before ∧ Spelled t.raw.toList t.kind after := by
  obtain ⟨ps, w, hcut, rfl⟩ := exists_split h
  obtain ⟨hsource, before, after, htext, hposition, hspelled⟩ := hcut.splits.token_spelled ht
  rw [Nat.zero_add] at hposition
  exact ⟨hsource, before, after, hcut.text_eq.trans htext, hposition, hspelled⟩

/-- A source has tokens if and only if it splits; then there is one split, and they are its lexemes.
Otherwise scanning fails where the longest prefix that splits ends. -/
theorem tokens_exact (source : Source) :
    (∀ ts, source.tokens = .ok ts ↔
      ∃ ps w, Cut source.text.toList ps w [] ∧ ts = Piece.tokens source 0 ps) ∧
    (∀ ps w ps' w', Cut source.text.toList ps w [] → Cut source.text.toList ps' w' [] →
      ps = ps' ∧ w = w') ∧
    ((¬ ∃ ps w, Cut source.text.toList ps w []) →
      ∃ ps w rest, Cut source.text.toList ps w rest ∧ rest ≠ [] ∧
        (∀ ps' w' rest', Cut source.text.toList ps' w' rest' → rest <:+ rest') ∧
        source.tokens =
          .error (.stuckAt source.text.toList (byteLength (join ps ++ w)) rest)) := by
  refine ⟨fun ts => ⟨exists_split, ?_⟩, fun _ _ _ _ => Cut.unique, fun hnone => ?_⟩
  · rintro ⟨ps, w, hsplit, rfl⟩
    exact tokens_of_split hsplit
  · obtain ⟨ps, w, rest, hcut, hrest⟩ := exists_cut source.text.toList
    rcases hrest with rfl | hstuck
    · exact (hnone ⟨ps, w, hcut⟩).elim
    · exact ⟨ps, w, rest, hcut, hstuck.ne_nil, fun _ _ _ => hcut.longest hstuck,
        tokens_of_stuck hcut hstuck⟩

end Source

end SqlScript

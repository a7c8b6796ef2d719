import SqlScript.Lexeme

/-!
# The lexical grammar

`Spelled raw kind rest` says that a text is a lexeme where `rest` follows it, and what it stands
for. Each form says for itself which next characters it must not be cut off from. A text has at
most one lexeme in front, and `recognize` finds it (`recognize_spelled_iff`).
-/

namespace SqlScript

/-- What follows does not begin with such a character. -/
def Ends (continues : Char → Bool) (rest : List Char) : Prop :=
  ∀ c ∈ rest.head?, continues c = false

@[simp] theorem ends_nil {continues : Char → Bool} : Ends continues [] := by
  simp [Ends]

@[simp] theorem ends_cons {continues : Char → Bool} {c : Char} {rest : List Char} :
    Ends continues (c :: rest) ↔ continues c = false := by
  simp [Ends]

open Lexeme

inductive Spelled : List Char → Kind → List Char → Prop
  | integer {digits rest} (hne : digits ≠ []) (hdigits : ∀ c ∈ digits, c.isDigit = true)
      (hrest : Ends (fun c => c.isDigit || c = '.') rest) :
      Spelled digits (.number (.ofDecimal (digitsValue digits) 0)) rest
  | decimal {whole fraction rest} (hne : whole ≠ []) (hwhole : ∀ c ∈ whole, c.isDigit = true)
      (hfraction : ∀ c ∈ fraction, c.isDigit = true) (hrest : Ends Char.isDigit rest) :
      Spelled (whole ++ '.' :: fraction)
        (.number (.ofDecimal (digitsValue (whole ++ fraction)) fraction.length)) rest
  /-- Every quote inside is written twice. -/
  | string {text rest} (hrest : Ends (· = '\'') rest) :
      Spelled ('\'' :: text.flatMap (fun c => if c = '\'' then ['\'', '\''] else [c]) ++ ['\''])
        (.string (String.ofList text)) rest
  | quoted {name rest} (hname : '"' ∉ name) :
      Spelled ('"' :: name ++ ['"']) (.name (String.ofList name)) rest
  | mark {c rest} (hc : c ∈ ['+', '-', '*', '/', '=', ';', ',', '(', ')', '.']) :
      Spelled [c] (.symbol (String.ofList [c])) rest
  | less {rest} (hrest : Ends (fun c => c = '=' || c = '>') rest) : Spelled ['<'] (.symbol "<") rest
  | greater {rest} (hrest : Ends (· = '=') rest) : Spelled ['>'] (.symbol ">") rest
  | lessEqual {rest} : Spelled ['<', '='] (.symbol "<=") rest
  | greaterEqual {rest} : Spelled ['>', '='] (.symbol ">=") rest
  /-- Both spellings of inequality are one symbol. -/
  | lessGreater {rest} : Spelled ['<', '>'] (.symbol "!=") rest
  | notEqual {rest} : Spelled ['!', '='] (.symbol "!=") rest
  /-- A word that is reserved, in whatever case. -/
  | keyword {first more rest} (hfirst : isWordStart first = true)
      (hmore : ∀ c ∈ more, isWordPart c = true) (hrest : Ends isWordPart rest)
      (hword : String.ofList ((first :: more).map Char.toUpper) ∈ Kind.reserved) :
      Spelled (first :: more) (.keyword (String.ofList ((first :: more).map Char.toUpper))) rest
  /-- Any other word stands for itself in upper case. -/
  | name {first more rest} (hfirst : isWordStart first = true)
      (hmore : ∀ c ∈ more, isWordPart c = true) (hrest : Ends isWordPart rest)
      (hword : String.ofList ((first :: more).map Char.toUpper) ∉ Kind.reserved) :
      Spelled (first :: more) (.name (String.ofList ((first :: more).map Char.toUpper))) rest

/-- A word is a keyword if it is reserved and else a name; case has no part in that. -/
theorem Spelled.word {first : Char} {more rest : List Char} (hfirst : isWordStart first = true)
    (hmore : ∀ c ∈ more, isWordPart c = true) (hrest : Ends isWordPart rest) :
    Spelled (first :: more) (.ofWord (String.ofList ((first :: more).map Char.toUpper))) rest := by
  rw [Kind.ofWord]
  split
  · next hword => exact .keyword hfirst hmore hrest hword
  · next hword => exact .name hfirst hmore hrest hword

/-! ## Taking characters off the front -/

section Take

variable {p : Char → Bool} {text rest : List Char}

/-- What goes on is taken up to where it ends. -/
theorem takeWhile_of_ends (htext : ∀ c ∈ text, p c = true) (hrest : Ends p rest) :
    (text ++ rest).takeWhile p = text := by
  rw [List.takeWhile_append_of_pos htext]
  cases rest with
  | nil => simp
  | cons c rest => simp [ends_cons.mp hrest]

/-- And what is left is the rest. -/
theorem dropWhile_of_ends (htext : ∀ c ∈ text, p c = true) (hrest : Ends p rest) :
    (text ++ rest).dropWhile p = rest := by
  rw [List.dropWhile_append_of_pos htext]
  cases rest with
  | nil => simp
  | cons c rest => simp [ends_cons.mp hrest]

/-- A text ends where the characters of a kind that it consists of do. -/
theorem append_inj_of_ends {text' rest' : List Char} (htext : ∀ c ∈ text, p c = true)
    (htext' : ∀ c ∈ text', p c = true) (hrest : Ends p rest) (hrest' : Ends p rest')
    (h : text ++ rest = text' ++ rest') : text = text' ∧ rest = rest' := by
  have hleft := takeWhile_of_ends htext hrest
  rw [h, takeWhile_of_ends htext' hrest'] at hleft
  subst hleft
  exact ⟨rfl, List.append_cancel_left h⟩

theorem of_mem_takeWhile {c : Char} (hc : c ∈ text.takeWhile p) : p c = true :=
  List.all_eq_true.mp List.all_takeWhile c hc

/-- What is left does not go on. -/
theorem ends_dropWhile : Ends p (text.dropWhile p) := by
  intro c hc
  have := List.head?_dropWhile_not p text
  simp_all

end Take

namespace Quoted

/-- Each character is doubled, or not, for itself. -/
theorem double_eq_flatMap (text : List Char) :
    double text = text.flatMap fun c => if c = '\'' then ['\'', '\''] else [c] := by
  induction text with
  | nil => rfl
  | cons c text ih =>
    rw [List.flatMap_cons, ← ih]
    by_cases hc : c = '\''
    · subst hc
      rfl
    · rw [double, if_neg hc]
      · rfl
      · exact hc

/-- The quote that closes a text is not the first of two. -/
theorem ends_of_read? {input text rest : List Char} (h : read? input = some (text, rest)) :
    Ends (· = '\'') rest := by
  fun_induction read? input generalizing text with
  | case1 => cases h
  | case2 input ih =>
    obtain ⟨⟨t, r⟩, ht, heq⟩ := Option.map_eq_some_iff.mp h
    cases heq
    exact ih ht
  | case3 input hsingle =>
    cases h
    intro c hc
    obtain ⟨more, rfl⟩ := List.head?_eq_some_iff.mp hc
    exact decide_eq_false fun heq => hsingle more (by rw [heq])
  | case4 c input _ _ ih =>
    obtain ⟨⟨t, r⟩, ht, heq⟩ := Option.map_eq_some_iff.mp h
    cases heq
    exact ih ht

/-- Reading a text with doubled quotes gives the text back, up to a quote that stands alone. -/
theorem read?_double {text rest : List Char} (hrest : Ends (· = '\'') rest) :
    read? (double text ++ '\'' :: rest) = some (text, rest) := by
  fun_induction double text with
  | case1 =>
    cases rest with
    | nil => rfl
    | cons c rest =>
      have hc : c ≠ '\'' := by simpa using hrest
      rw [List.nil_append, read?]
      exact fun input heq => hc (List.cons.inj heq).1
  | case2 text ih =>
    rw [List.cons_append, List.cons_append, read?, ih]
    rfl
  | case3 c text hc ih =>
    rw [List.cons_append, read?, ih]
    · rfl
    · exact fun _ hq => (hc hq).elim
    · exact fun hq => (hc hq).elim

end Quoted

/-! ## Recognizing -/

namespace Lexeme

/-- Digits, at most one point, and digits behind it if there are any. -/
theorem spelled_readNumber {input : List Char} (h : ∃ c ∈ input.head?, c.isDigit = true) :
    Spelled (readNumber input).1.spell (readNumber input).1.kind (readNumber input).2 := by
  have hne : input.takeWhile Char.isDigit ≠ [] := by
    obtain ⟨c, hc, hdigit⟩ := h
    obtain ⟨more, rfl⟩ := List.head?_eq_some_iff.mp hc
    simp [hdigit]
  have hends : Ends Char.isDigit (input.dropWhile Char.isDigit) := ends_dropWhile
  unfold readNumber
  split
  · exact .decimal hne (fun c => of_mem_takeWhile) (fun c => of_mem_takeWhile) ends_dropWhile
  · next hpoint =>
    simp only [spell, kind, Option.getD_none, List.append_nil]
    refine .integer hne (fun c => of_mem_takeWhile) fun c hc => ?_
    obtain ⟨more, hmore⟩ := List.head?_eq_some_iff.mp hc
    have hdot : c ≠ '.' := fun heq => hpoint more (by rw [hmore, heq])
    simp [hends c hc, hdot]

/-- Two characters are taken for one symbol wherever they can be. -/
theorem spelled_readSymbol? {input rest : List Char} {l : Lexeme}
    (h : readSymbol? input = some (l, rest)) : Spelled l.spell l.kind rest := by
  revert h
  fun_cases readSymbol? input with
  | case1 => intro h; cases h; exact .greaterEqual
  | case2 => intro h; cases h; exact .lessEqual
  | case3 => intro h; cases h; exact .lessGreater
  | case4 => intro h; cases h; exact .notEqual
  | case5 c rest hgreaterEqual hlessEqual hlessGreater hnotEqual hmarks =>
    intro h
    cases h
    -- a single mark is left, and of these only `<` and `>` can begin a longer symbol
    by_cases hless : c = '<'
    · subst hless
      refine .less fun d hd => ?_
      obtain ⟨more, rfl⟩ := List.head?_eq_some_iff.mp hd
      have hequal : d ≠ '=' := fun heq => hlessEqual more rfl (by rw [heq])
      have hgreater : d ≠ '>' := fun heq => hlessGreater more rfl (by rw [heq])
      simp [hequal, hgreater]
    · by_cases hgreater : c = '>'
      · subst hgreater
        refine .greater fun d hd => ?_
        obtain ⟨more, rfl⟩ := List.head?_eq_some_iff.mp hd
        exact decide_eq_false fun heq => hgreaterEqual more rfl (by rw [heq])
      · have hkind : (symbol [c]).kind = .symbol (String.ofList [c]) := by simp [kind]
        rw [hkind]
        exact .mark (by simpa [marks, hless, hgreater] using hmarks)
  | case6 => intro h; cases h
  | case7 => intro h; cases h

/-- Up to the first quote that is not doubled. -/
theorem spelled_readString {input rest : List Char} {l : Lexeme}
    (h : readString input = .ok (l, rest)) : Spelled l.spell l.kind rest := by
  unfold readString at h
  split at h
  · next hread =>
    cases h
    rw [spell, Quoted.write, Quoted.double_eq_flatMap]
    exact .string (Quoted.ends_of_read? hread)
  · cases h

/-- Up to the first quote. There is no way to have one in such a name. -/
theorem spelled_readQuoted {input rest : List Char} {l : Lexeme}
    (h : readQuoted input = .ok (l, rest)) : Spelled l.spell l.kind rest := by
  unfold readQuoted at h
  split at h
  · cases h
    refine .quoted fun hquote => ?_
    have := of_mem_takeWhile hquote
    simp at this
  · cases h

theorem isWordPart_of_start {c : Char} (h : isWordStart c = true) : isWordPart c = true := by
  simp only [isWordStart, isWordPart, Char.isAlphanum, Bool.or_eq_true] at h ⊢
  exact h.imp_left .inl

/-- What is recognized is spelled as the rules for its kind say, whatever follows. -/
theorem spelled_of_recognize {input rest : List Char} {l : Lexeme}
    (h : recognize input = .ok (l, rest)) : Spelled l.spell l.kind rest := by
  revert h
  fun_cases recognize input with
  | case1 => intro h; cases h
  | case2 input => exact spelled_readString
  | case3 input => exact spelled_readQuoted
  | case4 c input _ _ hdigit =>
    intro h
    have hspelled := spelled_readNumber ⟨c, List.head?_cons (l := input), hdigit⟩
    rwa [Except.ok.inj h] at hspelled
  | case5 c input _ _ _ hstart =>
    intro h
    cases h
    have hpart := isWordPart_of_start hstart
    simp only [spell, kind, List.takeWhile_cons_of_pos hpart,
      List.dropWhile_cons_of_pos hpart]
    exact .word hstart (fun d => of_mem_takeWhile) ends_dropWhile
  | case6 c input _ _ _ _ found hfound =>
    intro h
    cases h
    exact spelled_readSymbol? hfound
  | case7 => intro h; cases h

/-! Conversely, each form is found by the reader that is meant for it. -/

/-- A digit begins nothing but a number. -/
theorem recognize_digit {c : Char} (hc : c.isDigit = true) (input : List Char) :
    recognize (c :: input) = .ok (readNumber (c :: input)) := by
  rw [recognize, if_pos hc]
  · rintro rfl
    cases hc
  · rintro rfl
    cases hc

/-- A letter or an underscore begins nothing but a word. -/
theorem recognize_wordStart {c : Char} (hc : isWordStart c = true) (input : List Char) :
    recognize (c :: input) = .ok (readWord (c :: input)) := by
  -- digits are tried before words, but no digit starts a word
  have hdigits : ∀ k < 58, 48 ≤ k → isWordStart (Char.ofNat k) = false := by decide
  have hdigit : ¬ c.isDigit = true := by
    intro hdigit
    simp only [Char.isDigit, Bool.and_eq_true, decide_eq_true_eq] at hdigit
    have hlow : 48 ≤ c.toNat := hdigit.1
    have hhigh : c.toNat ≤ 57 := hdigit.2
    have hnot := hdigits c.toNat (by omega) hlow
    rw [Char.ofNat_toNat, hc] at hnot
    cases hnot
  rw [recognize, if_neg hdigit, if_pos hc]
  · rintro rfl
    cases hc
  · rintro rfl
    cases hc

/-- Such a word is recognized up to where it ends, and that is the longest one. -/
theorem recognize_word {first : Char} {more rest : List Char} (hfirst : isWordStart first = true)
    (hmore : ∀ c ∈ more, isWordPart c = true) (hrest : Ends isWordPart rest) :
    recognize (first :: more ++ rest) = .ok (.word (first :: more), rest) := by
  have hpart : isWordPart first = true := isWordPart_of_start hfirst
  rw [List.cons_append, recognize_wordStart hfirst, readWord,
    List.takeWhile_cons_of_pos hpart, List.dropWhile_cons_of_pos hpart,
    takeWhile_of_ends hmore hrest, dropWhile_of_ends hmore hrest]

/-- Without a point behind the digits they are all of the number. -/
theorem readNumber_integer {digits rest : List Char} (hdigits : ∀ c ∈ digits, c.isDigit = true)
    (hrest : Ends (fun c => c.isDigit || c = '.') rest) :
    readNumber (digits ++ rest) = (number digits none, rest) := by
  have hends : Ends Char.isDigit rest := fun c hc => by
    have := hrest c hc
    simp_all
  rw [readNumber, takeWhile_of_ends hdigits hends, dropWhile_of_ends hdigits hends]
  split
  · next more => simp at hrest
  · rfl

/-- One point belongs to the number, and a second one does not. -/
theorem readNumber_decimal {whole fraction rest : List Char}
    (hwhole : ∀ c ∈ whole, c.isDigit = true) (hfraction : ∀ c ∈ fraction, c.isDigit = true)
    (hrest : Ends Char.isDigit rest) :
    readNumber (whole ++ '.' :: fraction ++ rest) = (number whole (some fraction), rest) := by
  have hends : Ends Char.isDigit ('.' :: (fraction ++ rest)) := by simp
  rw [List.append_assoc, List.cons_append, readNumber, takeWhile_of_ends hwhole hends,
    dropWhile_of_ends hwhole hends]
  simp only [takeWhile_of_ends hfraction hrest, dropWhile_of_ends hfraction hrest]

/-- What is spelled by the rules is recognized, so the rules leave no choice. -/
theorem recognize_of_spelled {raw rest : List Char} {kind : Kind} (h : Spelled raw kind rest) :
    ∃ l : Lexeme, recognize (raw ++ rest) = .ok (l, rest) ∧ l.spell = raw ∧ l.kind = kind := by
  cases h with
  | integer hne hdigits hrest =>
    obtain ⟨c, digits, rfl⟩ := List.exists_cons_of_ne_nil hne
    refine ⟨.number (c :: digits) none, ?_, rfl, by simp [Lexeme.kind]⟩
    rw [← readNumber_integer hdigits hrest]
    exact recognize_digit (hdigits c (by simp)) (digits ++ rest)
  | @decimal whole fraction _ hne hwhole hfraction hrest =>
    obtain ⟨c, whole, rfl⟩ := List.exists_cons_of_ne_nil hne
    refine ⟨.number (c :: whole) (some fraction), ?_, rfl, rfl⟩
    rw [← readNumber_decimal hwhole hfraction hrest]
    exact recognize_digit (hwhole c (by simp)) _
  | @string text _ hrest =>
    refine ⟨.string text, ?_, ?_, rfl⟩
    · rw [← Quoted.double_eq_flatMap, List.append_assoc]
      show readString (Quoted.double text ++ '\'' :: rest) = _
      rw [readString, Quoted.read?_double hrest]
    · rw [spell, Quoted.write, Quoted.double_eq_flatMap]
  | @quoted name _ hname =>
    have hname : ∀ c ∈ name, (c != '"') = true := fun c hc => by
      simpa using fun heq : c = '"' => hname (heq ▸ hc)
    have hends : Ends (· != '"') ('"' :: rest) := by simp
    refine ⟨.quoted name, ?_, rfl, rfl⟩
    rw [List.append_assoc]
    show readQuoted (name ++ '"' :: rest) = _
    rw [readQuoted, takeWhile_of_ends hname hends, dropWhile_of_ends hname hends]
  | @mark c _ hc =>
    simp only [List.mem_cons, List.not_mem_nil, or_false] at hc
    rcases hc with rfl | rfl | rfl | rfl | rfl | rfl | rfl | rfl | rfl | rfl <;>
      exact ⟨.symbol _, rfl, rfl, rfl⟩
  | less hrest =>
    refine ⟨.symbol ['<'], ?_, rfl, rfl⟩
    cases rest with
    | nil => rfl
    | cons c rest =>
      obtain ⟨hequal, hgreater⟩ : c ≠ '=' ∧ c ≠ '>' := by simpa using hrest
      simp [recognize, readSymbol?, isWordStart, marks, hequal, hgreater]
  | greater hrest =>
    refine ⟨.symbol ['>'], ?_, rfl, rfl⟩
    cases rest with
    | nil => rfl
    | cons c rest =>
      have hequal : c ≠ '=' := by simpa using hrest
      simp [recognize, readSymbol?, isWordStart, marks, hequal]
  | lessEqual => exact ⟨.symbol ['<', '='], rfl, rfl, rfl⟩
  | greaterEqual => exact ⟨.symbol ['>', '='], rfl, rfl, rfl⟩
  | lessGreater => exact ⟨.symbol ['<', '>'], rfl, rfl, rfl⟩
  | notEqual => exact ⟨.symbol ['!', '='], rfl, rfl, rfl⟩
  | keyword hfirst hmore hrest hword =>
    exact ⟨.word _, recognize_word hfirst hmore hrest, rfl, if_pos hword⟩
  | name hfirst hmore hrest hword =>
    exact ⟨.word _, recognize_word hfirst hmore hrest, rfl, if_neg hword⟩

end Lexeme

end SqlScript

import SqlScript.Proofs.Scan.Cursor

/-!
# Recognizers in offsets

Each recognizer of the cursor reads what begins with its own characters, all of one byte, as the
scanner reads it, and declines everything else (`Recognizes`). So none of them faults wherever it is
tried (`proper_of_mem_recognizers`), and together they find what the scanner recognizes
(`firstMatch_recognizers`).
-/

namespace SqlScript

namespace Quoted

variable {chunk : List Char}

/-- A piece without quotes is taken as it is. -/
theorem read?_chunk (h : '\'' ∉ chunk) (input : List Char) :
    read? (chunk ++ input) = (read? input).map fun (text, rest) => (chunk ++ text, rest) := by
  induction chunk with
  | nil => cases hread : read? input <;> rw [List.nil_append, hread] <;> rfl
  | cons c chunk ih =>
    obtain ⟨hc, hchunk⟩ := not_or.mp (List.mem_cons.not.mp h)
    have hne : ¬ c = '\'' := fun heq => hc heq.symm
    rw [List.cons_append, read?, ih hchunk, Option.map_map]
    · rfl
    · exact fun _ heq => (hne heq).elim
    · exact fun heq => (hne heq).elim

/-- A piece without quotes has nothing to double. -/
theorem double_chunk (h : '\'' ∉ chunk) (text : List Char) :
    double (chunk ++ text) = chunk ++ double text := by
  induction chunk with
  | nil => rfl
  | cons c chunk ih =>
    obtain ⟨hc, hchunk⟩ := not_or.mp (List.mem_cons.not.mp h)
    rw [List.cons_append, double, ih hchunk, List.cons_append]
    exact fun heq => hc heq.symm

end Quoted

namespace Cursor

variable {text after : List Char} {start offset : Nat}

/-! ## Loops -/

/-- Skipping bytes comes to skipping characters where those are one byte each. -/
theorem skipWhile_eq {p : Char → Bool} (hp : ∀ c, p c = true → c.toNat < 128)
    (h : SuffixAt text offset after) :
    skipWhile text p offset = offset + byteLength (after.takeWhile p) := by
  induction after generalizing offset with
  | nil =>
    rw [skipWhile, h.any_peek? hp]
    rfl
  | cons c after ih =>
    rw [skipWhile, h.any_peek? hp, List.head?_cons, Option.any_some]
    split
    · next hc =>
      rw [ih (h.next (hp c hc)), List.takeWhile_cons_of_pos hc, byteLength_cons,
        utf8Size_of_ascii (hp c hc), Nat.add_assoc]
    · next hc =>
      rw [List.takeWhile_cons_of_neg hc]
      rfl

/-- One step of the recursion, with the look at the byte written out. -/
theorem numberEnd_eq (seen : Bool) : numberEnd text seen offset =
    if peek? text offset = some '.' then
      if seen then offset else numberEnd text true (offset + 1)
    else if (peek? text offset).any Char.isDigit then numberEnd text seen (offset + 1)
    else offset := by
  rw [numberEnd]
  split
  · next b hb => simp only [hb, Option.some.injEq, Option.any_some]
  · next hb => simp only [hb, reduceCtorEq, if_false, Option.any_none, Bool.false_eq_true]

theorem ascii_of_isDigit (c : Char) (h : c.isDigit = true) : c.toNat < 128 := by
  simp only [Char.isDigit, Bool.and_eq_true, decide_eq_true_eq] at h
  have hle : c.toNat ≤ 57 := h.2
  omega

/-- Digits are passed over. -/
theorem numberEnd_digits {digits rest : List Char} (hdigits : ∀ c ∈ digits, c.isDigit = true)
    (h : SuffixAt text offset (digits ++ rest)) (seen : Bool) :
    numberEnd text seen offset = numberEnd text seen (offset + byteLength digits) := by
  induction digits generalizing offset with
  | nil => rfl
  | cons c digits ih =>
    obtain ⟨hc, hdigits⟩ := List.forall_mem_cons.mp hdigits
    have hascii := ascii_of_isDigit c hc
    have hpeek : peek? text offset = some c := (h.peek?_eq_some_iff hascii).mpr rfl
    have hpoint : c ≠ '.' := fun heq => by rw [heq] at hc; cases hc
    have hstep : numberEnd text seen offset = numberEnd text seen (offset + 1) := by
      rw [numberEnd_eq]
      simp [hpeek, hpoint, hc]
    rw [hstep, ih hdigits (h.next hascii), byteLength_cons, utf8Size_of_ascii hascii, Nat.add_assoc]

/-- The first point is passed over. -/
theorem numberEnd_point {rest : List Char} (h : SuffixAt text offset ('.' :: rest)) :
    numberEnd text false offset = numberEnd text true (offset + 1) := by
  rw [numberEnd_eq, if_pos ((h.peek?_eq_some_iff (by decide)).mpr rfl)]
  rfl

theorem any_head?_of_ends {p : Char → Bool} {rest : List Char} (h : Ends p rest) :
    rest.head?.any p = false := by
  cases rest with
  | nil => rfl
  | cons c rest => exact ends_cons.mp h

/-- The end is at the first character that is neither. -/
theorem numberEnd_stop {rest : List Char} {seen : Bool} (h : SuffixAt text offset rest)
    (hrest : Ends Char.isDigit rest) (hpoint : seen = true ∨ rest.head? ≠ some '.') :
    numberEnd text seen offset = offset := by
  have hdigit : (peek? text offset).any Char.isDigit = false :=
    (h.any_peek? ascii_of_isDigit).trans (any_head?_of_ends hrest)
  have hpeek : peek? text offset = some '.' ↔ rest.head? = some '.' :=
    h.peek?_eq_some_iff (by decide)
  rw [numberEnd_eq]
  simp only [hdigit, hpeek]
  rcases hpoint with rfl | hpoint
  · simp
  · simp [hpoint]

/-! ## What recognizers find -/

/-- The outcome of recognizing, in offsets. -/
def outcome (text : List Char) (start : Nat) :
    Except ScanReason (Lexeme × List Char) → Except Stop Found
  | .ok (l, _) => .ok (some (start + byteLength l.spell, l.kind))
  | .error .unexpectedCharacter => .ok none
  | .error reason => .error (.failed ⟨byteLength text, "", reason⟩)

/-- A recognizer reads what begins with certain characters of one byte, and nothing else. -/
structure Recognizes (opens : Char → Bool)
    (recognizer : List Char → Nat → Except Stop Found) : Prop where
  ascii : ∀ c, opens c = true → c.toNat < 128
  declines : ∀ text start, (peek? text start).any opens = false → recognizer text start = .ok none
  reads : ∀ {text after start c}, SuffixAt text start (c :: after) → opens c = true →
    recognizer text start = outcome text start (Lexeme.recognize (c :: after))

/-! ### Numbers and words -/

/-- The bytes of a lexeme are those up to where it ends. -/
theorem slice_of_append {l : Lexeme} {rest : List Char} (h : SuffixAt text start after)
    (happend : l.spell ++ rest = after) :
    slice? text start (start + byteLength l.spell) = some l.spell := by
  subst happend
  exact h.slice?_eq

/-- Digits alone are always a number. -/
theorem parse?_integer {digits : List Char} (hne : digits ≠ [])
    (hdigits : ∀ c ∈ digits, c.isDigit = true) :
    Binary64.parse? digits = some (.ofDecimal (digitsValue digits) 0) := by
  have htake := takeWhile_of_ends hdigits ends_nil
  have hdrop := dropWhile_of_ends hdigits ends_nil
  rw [List.append_nil] at htake hdrop
  simp [Binary64.parse?, htake, hdrop, hne]

/-- With digits behind the point or without, it is a number. -/
theorem parse?_decimal {whole fraction : List Char} (hne : whole ≠ [])
    (hwhole : ∀ c ∈ whole, c.isDigit = true) (hfraction : ∀ c ∈ fraction, c.isDigit = true) :
    Binary64.parse? (whole ++ '.' :: fraction) =
      some (.ofDecimal (digitsValue (whole ++ fraction)) fraction.length) := by
  have hends : Ends Char.isDigit ('.' :: fraction) := ends_cons.mpr (by decide)
  have hall : fraction.all Char.isDigit = true := List.all_eq_true.mpr hfraction
  simp [Binary64.parse?, takeWhile_of_ends hwhole hends, dropWhile_of_ends hwhole hends, hall, hne]

/-- Bytes are counted up to where the characters of the number end. -/
theorem numberEnd_readNumber (h : SuffixAt text start after) :
    numberEnd text false start = start + byteLength (Lexeme.readNumber after).1.spell := by
  have hwhole : ∀ c ∈ after.takeWhile Char.isDigit, c.isDigit = true :=
    fun c => of_mem_takeWhile
  have hsplit := List.takeWhile_append_dropWhile (p := Char.isDigit) (l := after)
  have hends : Ends Char.isDigit (after.dropWhile Char.isDigit) := ends_dropWhile
  unfold Lexeme.readNumber
  split
  · next rest hdrop =>
    rw [hdrop] at hsplit
    rw [← hsplit] at h
    have hpoint : SuffixAt text _ ('.' :: rest) := h.skip
    have hbehind := hpoint.next (by decide)
    have hfraction : ∀ c ∈ rest.takeWhile Char.isDigit, c.isDigit = true :=
      fun c => of_mem_takeWhile
    have hrest := List.takeWhile_append_dropWhile (p := Char.isDigit) (l := rest)
    rw [← hrest] at hbehind
    rw [numberEnd_digits hwhole h, numberEnd_point hpoint, numberEnd_digits hfraction hbehind,
      numberEnd_stop hbehind.skip ends_dropWhile (.inl rfl)]
    have hsize : '.'.utf8Size = 1 := by decide
    simp only [Lexeme.spell, byteLength_append, byteLength_cons, hsize]
    omega
  · next hpoint =>
    rw [← hsplit] at h
    rw [numberEnd_digits hwhole h, numberEnd_stop h.skip hends (.inr fun hhead => ?_)]
    · rfl
    · obtain ⟨rest, hrest⟩ := List.head?_eq_some_iff.mp hhead
      exact hpoint rest hrest

/-- The text of a number is never refused. -/
theorem parse?_readNumber {input : List Char} (h : input.takeWhile Char.isDigit ≠ []) :
    ∃ value, Binary64.parse? (Lexeme.readNumber input).1.spell = some value ∧
      (Lexeme.readNumber input).1.kind = .number value := by
  unfold Lexeme.readNumber
  split
  · exact ⟨_, parse?_decimal h (fun _ => of_mem_takeWhile) fun _ => of_mem_takeWhile, rfl⟩
  · exact ⟨_, parse?_integer h fun _ => of_mem_takeWhile, by simp [Lexeme.kind, Lexeme.spell]⟩

/-- Digits first, so a point alone is no number. -/
theorem recognizes_number : Recognizes Char.isDigit number where
  ascii := ascii_of_isDigit
  declines text start h := by
    rw [number, h]
    rfl
  reads {text after start c} h hc := by
    have hopen : (peek? text start).any Char.isDigit = true :=
      (h.any_peek? ascii_of_isDigit).trans hc
    -- counting may as well begin at the first digit
    have hfirst : numberEnd text false (start + 1) = numberEnd text false start := by
      have hdigit := @numberEnd_digits text start [c] after (by simpa using hc) h false
      rw [hdigit, byteLength_cons, utf8Size_of_ascii (ascii_of_isDigit c hc), byteLength_nil]
    have htake : (c :: after).takeWhile Char.isDigit ≠ [] := by
      rw [List.takeWhile_cons_of_pos hc]
      exact List.cons_ne_nil _ _
    obtain ⟨value, hparse, hkind⟩ := parse?_readNumber htake
    have hslice := slice_of_append h (Lexeme.spell_readNumber (c :: after))
    rw [Lexeme.recognize_digit hc, number, if_pos hopen, hfirst, numberEnd_readNumber h]
    simp only [hslice, expect_some, ok_bind, hparse, outcome, hkind]
    rfl

theorem ascii_of_isWordPart (c : Char) (h : Lexeme.isWordPart c = true) : c.toNat < 128 := by
  simp only [Lexeme.isWordPart, Char.isAlphanum, Bool.or_eq_true, beq_iff_eq] at h
  rcases h with (hletter | hdigit) | rfl
  · rcases (Bool.or_eq_true _ _).mp hletter with hupper | hlower
    · have hle : c.toNat ≤ 90 := (of_decide_eq_true hupper).2
      omega
    · have hle : c.toNat ≤ 122 := of_decide_eq_true ((Bool.and_eq_true _ _).mp hlower).2
      omega
  · exact ascii_of_isDigit c hdigit
  · decide

/-- Words are in ASCII, so bytes and characters are the same here. -/
theorem recognizes_word : Recognizes Lexeme.isWordStart word where
  ascii c hc := ascii_of_isWordPart c (Lexeme.isWordPart_of_start hc)
  declines text start h := by
    rw [word, h]
    rfl
  reads {text after start c} h hc := by
    have hpart := Lexeme.isWordPart_of_start hc
    have hascii := ascii_of_isWordPart c hpart
    have hopen : (peek? text start).any Lexeme.isWordStart = true :=
      (h.any_peek? fun c hc => ascii_of_isWordPart c (Lexeme.isWordPart_of_start hc)).trans hc
    have hstop : skipWhile text Lexeme.isWordPart (start + 1) =
        start + byteLength (Lexeme.readWord (c :: after)).1.spell := by
      rw [skipWhile_eq ascii_of_isWordPart (h.next hascii), Lexeme.readWord, Lexeme.spell,
        List.takeWhile_cons_of_pos hpart, byteLength_cons, utf8Size_of_ascii hascii, Nat.add_assoc]
    have hslice := slice_of_append h (Lexeme.spell_readWord (c :: after))
    rw [Lexeme.recognize_wordStart hc, word, if_pos hopen, hstop]
    simp only [hslice]
    rfl

/-! ### Quotes -/

/-- A look at the next byte, as a character. -/
theorem peek?_ne_of_any {c : Char} (h : (peek? text offset).any (· == c) = false) :
    peek? text offset ≠ some c := by
  intro hpeek
  rw [hpeek, Option.any_some, beq_self_eq_true] at h
  cases h

/-- Nothing is found, and nothing is out of bounds. -/
theorem find_of_not_mem {c : Char} (h : SuffixAt text offset after) (hc : c ∉ after) :
    find text c offset = .ok none := by
  simp only [find, h.slice?_end, expect_some, ok_bind, if_neg hc]
  rfl

/-- What is found is the first one. -/
theorem find_of_mem {c : Char} {chunk rest : List Char}
    (h : SuffixAt text offset (chunk ++ c :: rest)) (hc : c ∉ chunk) :
    find text c offset = .ok (some (offset + byteLength chunk)) := by
  have hchunk : ∀ d ∈ chunk, (d != c) = true := fun d hd => by
    simpa using fun heq : d = c => hc (heq ▸ hd)
  have hmem : c ∈ chunk ++ c :: rest := by simp
  simp only [find, h.slice?_end, expect_some, ok_bind, if_pos hmem]
  rw [takeWhile_of_ends hchunk (ends_cons.mpr (by simp))]
  rfl

/-- At the end nothing remains. -/
theorem failAt_end {α : Type} (reason : ScanReason) :
    (failAt text (byteLength text) reason : Except Stop α) =
      .error (.failed ⟨byteLength text, "", reason⟩) := by
  have hend : SuffixAt text (byteLength text) [] := ⟨text, (List.append_nil _).symm, rfl⟩
  simp only [failAt, hend.slice?_end, expect_some, ok_bind]
  rfl

/-- Without a closing quote the string is unfinished. -/
theorem stringFrom_of_none {value : List Char} (h : find text '\'' offset = .ok none) :
    stringFrom text value offset = failAt text (byteLength text) .unterminatedString := by
  rw [stringFrom]
  split
  · next hfind => rw [h] at hfind; cases hfind
  · rfl
  · next hfind => rw [h] at hfind; cases hfind

/-- A doubled quote is part of the string. -/
theorem stringFrom_of_some {value chunk : List Char} {close : Nat}
    (h : find text '\'' offset = .ok (some close))
    (hchunk : slice? text offset close = some chunk) :
    stringFrom text value offset =
      if peek? text (close + 1) = some '\'' then
        stringFrom text (value ++ chunk ++ ['\'']) (close + 2)
      else .ok (some (close + 1, .string (String.ofList (value ++ chunk)))) := by
  rw [stringFrom]
  split
  · next hfind => rw [h] at hfind; cases hfind
  · next hfind => rw [h] at hfind; cases hfind
  · next hfind =>
    rw [h] at hfind
    cases hfind
    simp only [hchunk, expect_some, ok_bind]
    split <;> rfl

/-- By induction on what is left: behind a doubled quote reading goes on. -/
theorem stringFrom_eq (h : SuffixAt text offset after) (value : List Char) :
    stringFrom text value offset =
      match Quoted.read? after with
      | some (found, _) =>
        .ok (some (offset + byteLength (Quoted.double found) + 1,
          .string (String.ofList (value ++ found))))
      | none => .error (.failed ⟨byteLength text, "", .unterminatedString⟩) := by
  induction hlength : after.length using Nat.strongRecOn generalizing after offset value with
  | ind n ih =>
    by_cases hquote : '\'' ∈ after
    · obtain ⟨chunk, rest, rfl, hchunk⟩ := List.eq_append_cons_of_mem hquote
      have hclose : SuffixAt text (offset + byteLength chunk) ('\'' :: rest) := h.skip
      have hbehind := hclose.next (by decide)
      have hdouble := hbehind.peek?_eq_some_iff (c := '\'') (by decide)
      rw [stringFrom_of_some (find_of_mem h hchunk) h.slice?_eq, Quoted.read?_chunk hchunk]
      simp only [hdouble]
      by_cases hhead : rest.head? = some '\''
      · obtain ⟨more, rfl⟩ := List.head?_eq_some_iff.mp hhead
        have hmore : SuffixAt text (offset + byteLength chunk + 2) more := hbehind.next (by decide)
        have hshorter : more.length < n := by
          simp only [← hlength, List.length_append, List.length_cons]
          omega
        rw [if_pos hhead, ih more.length hshorter hmore _ rfl, Quoted.read?]
        cases Quoted.read? more with
        | none => rfl
        | some found =>
          have hsize : '\''.utf8Size = 1 := by decide
          simp only [Option.map_some, Quoted.double_chunk hchunk, Quoted.double, byteLength_append,
            byteLength_cons, hsize, List.append_assoc, List.singleton_append]
          congr 3
          omega
      · have hplain : Quoted.double chunk = chunk := by
          simpa [Quoted.double] using Quoted.double_chunk hchunk []
        rw [if_neg hhead, Quoted.read?]
        · simp only [Option.map_some, List.append_nil, hplain]
        · exact fun more heq => hhead (by rw [heq]; rfl)
    · rw [stringFrom_of_none (find_of_not_mem h hquote), failAt_end]
      have hread := Quoted.read?_chunk hquote []
      rw [List.append_nil] at hread
      rw [hread]
      rfl

/-- The opening quote is one byte; behind it, the pieces between quotes are slices. -/
theorem recognizes_string : Recognizes (· == '\'') string where
  ascii c hc := by
    rw [eq_of_beq hc]
    decide
  declines text start h := by
    rw [string, if_neg (peek?_ne_of_any h)]
    rfl
  reads {text after start c} h hc := by
    obtain rfl : c = '\'' := eq_of_beq hc
    rw [string, if_pos ((h.peek?_eq_some_iff (by decide)).mpr rfl),
      stringFrom_eq (h.next (by decide))]
    show _ = outcome text start (Lexeme.readString after)
    rw [Lexeme.readString]
    cases Quoted.read? after with
    | none => rfl
    | some found =>
      have hsize : '\''.utf8Size = 1 := by decide
      simp only [outcome, Lexeme.spell, Lexeme.kind, Quoted.write, byteLength_append,
        byteLength_cons, byteLength_nil, hsize, List.nil_append]
      congr 3
      omega

example : (string "'é''é'x".toList 0).toOption = some (some (8, .string "é'é")) := by
  decide +kernel

/-- One slice up to the next quote. -/
theorem recognizes_quoted : Recognizes (· == '"') quoted where
  ascii c hc := by
    rw [eq_of_beq hc]
    decide
  declines text start h := by
    rw [quoted, if_neg (peek?_ne_of_any h)]
    rfl
  reads {text after start c} h hc := by
    obtain rfl : c = '"' := eq_of_beq hc
    have hbehind : SuffixAt text (start + 1) after := h.next (by decide)
    rw [quoted, if_pos ((h.peek?_eq_some_iff (by decide)).mpr rfl)]
    show _ = outcome text start (Lexeme.readQuoted after)
    rw [Lexeme.readQuoted]
    by_cases hquote : '"' ∈ after
    · obtain ⟨name, rest, rfl, hname⟩ := List.eq_append_cons_of_mem hquote
      have hall : ∀ d ∈ name, (d != '"') = true := fun d hd => by
        simpa using fun heq : d = '"' => hname (heq ▸ hd)
      have hends : Ends (· != '"') ('"' :: rest) := ends_cons.mpr (by simp)
      have hsize : '"'.utf8Size = 1 := by decide
      simp only [find_of_mem hbehind hname, ok_bind, hbehind.slice?_eq, expect_some,
        takeWhile_of_ends hall hends, dropWhile_of_ends hall hends, outcome, Lexeme.spell,
        Lexeme.kind, byteLength_append, byteLength_cons, byteLength_nil, hsize]
      have hclose : start + 1 + byteLength name + 1 =
          start + (1 + byteLength name + (1 + 0)) := by omega
      rw [hclose]
      rfl
    · have hall : ∀ d ∈ after, (d != '"') = true := fun d hd => by
        simpa using fun heq : d = '"' => hquote (heq ▸ hd)
      have hdrop := dropWhile_of_ends hall ends_nil
      rw [List.append_nil] at hdrop
      simp only [find_of_not_mem hbehind hquote, ok_bind, failAt_end, hdrop]
      rfl

/-! ### Symbols -/

/-- The characters that symbols begin with. -/
def opensSymbol (c : Char) : Bool := c ∈ '!' :: Lexeme.marks

theorem ascii_of_opensSymbol (c : Char) (h : opensSymbol c = true) : c.toNat < 128 := by
  have hall : ('!' :: Lexeme.marks).all (·.toNat < 128) = true := by decide
  exact of_decide_eq_true (List.all_eq_true.mp hall c (of_decide_eq_true h))

/-- No symbol begins with any other character. -/
theorem symbolOf_eq_none {c : Char} (h : opensSymbol c = false) (next : Option Char) :
    symbolOf c next = none := by
  simp only [opensSymbol, Lexeme.marks, List.mem_cons, decide_eq_false_iff_not, not_or] at h
  simp [symbolOf, Lexeme.marks, h]

/-- What is left, once all that begins otherwise is ruled out. -/
theorem recognize_symbol {c : Char} (h : opensSymbol c = true) (input : List Char) :
    Lexeme.recognize (c :: input) =
      match Lexeme.readSymbol? (c :: input) with
      | some found => .ok found
      | none => .error .unexpectedCharacter := by
  have hother : ('!' :: Lexeme.marks).all (fun c => c.isDigit = false ∧
      Lexeme.isWordStart c = false ∧ c ≠ '\'' ∧ c ≠ '"') = true := by decide
  obtain ⟨hdigit, hword, hsingle, hdouble⟩ :=
    of_decide_eq_true (List.all_eq_true.mp hother c (of_decide_eq_true h))
  rw [Lexeme.recognize, hdigit, hword]
  · rfl
  · exact hsingle
  · exact hdouble

/-- Looking at two bytes is looking at two characters. -/
theorem symbolOf_eq {c : Char} {input : List Char} {next : Option Char}
    (hnext : ∀ d : Char, d.toNat < 128 → (next = some d ↔ input.head? = some d)) :
    (symbolOf c next).map (fun (length, name) => (length, Kind.symbol name)) =
      (Lexeme.readSymbol? (c :: input)).map fun (l, _) => (byteLength l.spell, l.kind) := by
  -- a pair of characters, in the order of the readers
  have hpair : ∀ first second : Char, second.toNat < 128 →
      (∀ rest, c = first → input = second :: rest → False) →
        ¬ (c = first ∧ next = some second) := by
    rintro first second hsecond hnot ⟨hfirst, hsome⟩
    obtain ⟨rest, hrest⟩ := List.head?_eq_some_iff.mp ((hnext second hsecond).mp hsome)
    exact hnot rest hfirst hrest
  unfold Lexeme.readSymbol?
  split
  · next heq =>
    cases heq
    rw [(hnext '=' (by decide)).mpr rfl]
    rfl
  · next heq =>
    cases heq
    rw [(hnext '=' (by decide)).mpr rfl]
    rfl
  · next heq =>
    cases heq
    rw [(hnext '>' (by decide)).mpr rfl]
    rfl
  · next heq =>
    cases heq
    rw [(hnext '=' (by decide)).mpr rfl]
    rfl
  · next hgreaterEqual hlessEqual hlessGreater hnotEqual heq =>
    cases heq
    rw [symbolOf, if_neg (hpair _ _ (by decide) hgreaterEqual),
      if_neg (hpair _ _ (by decide) hlessEqual), if_neg (hpair _ _ (by decide) hlessGreater),
      if_neg (hpair _ _ (by decide) hnotEqual)]
    split
    · next hmark =>
      have hopens : opensSymbol c = true := decide_eq_true (List.mem_cons_of_mem _ hmark)
      simp [Lexeme.spell, Lexeme.kind, utf8Size_of_ascii (ascii_of_opensSymbol c hopens)]
    · rfl
  · next heq => cases heq

/-- All symbols are in ASCII and one byte or two long. -/
theorem recognizes_symbol : Recognizes opensSymbol symbol where
  ascii := ascii_of_opensSymbol
  declines text start h := by
    rw [symbol]
    cases hpeek : peek? text start with
    | none => rfl
    | some c =>
      rw [hpeek] at h
      have hnone := symbolOf_eq_none h (peek? text (start + 1))
      simp only [Option.bind_eq_bind, Option.bind_some, hnone]
      rfl
  reads {text after start c} h hc := by
    have hascii := ascii_of_opensSymbol c hc
    have hsymbol := @symbolOf_eq c after (peek? text (start + 1)) fun d hd =>
      (h.next hascii).peek?_eq_some_iff hd
    rw [symbol, (h.peek?_eq_some_iff hascii).mpr rfl, recognize_symbol hc]
    simp only [Option.bind_eq_bind, Option.bind_some]
    revert hsymbol
    cases symbolOf c (peek? text (start + 1)) with
    | none =>
      cases Lexeme.readSymbol? (c :: after) with
      | none => exact fun _ => rfl
      | some found => exact nofun
    | some name =>
      cases Lexeme.readSymbol? (c :: after) with
      | none => exact nofun
      | some found =>
        intro hsymbol
        obtain ⟨hlength, hkind⟩ := Prod.mk.inj (Option.some.inj hsymbol)
        simp only [outcome, ← hlength, ← hkind]
        rfl

/-! ## All recognizers -/

/-- No fault; and what is found takes something and does not go past the end. -/
def Proper (text : List Char) (start : Nat) (result : Except Stop Found) : Prop :=
  (∀ fault, result ≠ .error (.fault fault)) ∧
    ∀ stop kind, result = .ok (some (stop, kind)) → start < stop ∧ stop ≤ byteLength text

/-- A lexeme ends on a boundary and behind where it starts. -/
theorem proper_outcome (h : SuffixAt text start after) :
    Proper text start (outcome text start (Lexeme.recognize after)) := by
  cases hread : Lexeme.recognize after with
  | error reason => cases reason <;> exact ⟨nofun, nofun⟩
  | ok found =>
    obtain ⟨l, rest⟩ := found
    refine ⟨nofun, fun stop kind heq => ?_⟩
    cases heq
    have happend := Lexeme.spell_append_of_recognize hread
    obtain ⟨c, more, hspell⟩ := List.exists_cons_of_ne_nil (Lexeme.spell_ne_nil_of_recognize hread)
    have hpos := c.utf8Size_pos
    have hsize : byteLength l.spell = c.utf8Size + byteLength more := by
      rw [hspell, byteLength_cons]
    rw [← happend] at h
    have hle := h.skip.le
    omega

theorem Recognizes.proper {opens : Char → Bool} {recognizer : List Char → Nat → Except Stop Found}
    (h : Recognizes opens recognizer) (text : List Char) (start : Nat) :
    Proper text start (recognizer text start) := by
  cases hopen : (peek? text start).any opens with
  | false =>
    rw [h.declines text start hopen]
    exact ⟨nofun, nofun⟩
  | true =>
    obtain ⟨c, hpeek, hc⟩ := (Option.any_eq_true _ _).mp hopen
    obtain ⟨after, hsuffix⟩ := SuffixAt.of_peek? hpeek (h.ascii c hc)
    rw [h.reads hsuffix hc]
    exact proper_outcome hsuffix

/-- The recognizers with what they begin with. -/
def opened : List ((Char → Bool) × (List Char → Nat → Except Stop Found)) :=
  [(Char.isDigit, number), ((· == '\''), string), ((· == '"'), quoted), (opensSymbol, symbol),
    (Lexeme.isWordStart, word)]

/-- Each recognizer with what opens its lexemes. -/
theorem recognizes_opened : ∀ r ∈ opened, Recognizes r.1 r.2 := by
  simp only [opened, List.forall_mem_cons, List.not_mem_nil, false_implies, implies_true, and_true]
  exact ⟨recognizes_number, recognizes_string, recognizes_quoted, recognizes_symbol,
    recognizes_word⟩

theorem proper_of_mem_recognizers {recognizer : List Char → Nat → Except Stop Found}
    (h : recognizer ∈ recognizers) (text : List Char) (start : Nat) :
    Proper text start (recognizer text start) := by
  have hmem : recognizer ∈ opened.map Prod.snd := h
  obtain ⟨r, hr, rfl⟩ := List.mem_map.mp hmem
  exact (recognizes_opened r hr).proper text start

/-- Whichever recognizer opens a lexeme finds it, so their order does not matter. -/
theorem firstMatch_eq {rs : List ((Char → Bool) × (List Char → Nat → Except Stop Found))}
    (hrs : ∀ r ∈ rs, Recognizes r.1 r.2) {c : Char} (h : SuffixAt text start (c :: after)) :
    firstMatch text start (rs.map Prod.snd) =
      if rs.any (·.1 c) then outcome text start (Lexeme.recognize (c :: after)) else .ok none := by
  induction rs with
  | nil => rfl
  | cons r rs ih =>
    obtain ⟨hr, hrs⟩ := List.forall_mem_cons.mp hrs
    rw [List.map_cons, firstMatch, ih hrs]
    cases hc : r.1 c with
    | false =>
      have hclosed : (peek? text start).any r.1 = false := (h.any_peek? hr.ascii).trans hc
      rw [hr.declines text start hclosed, ok_bind, List.any_cons, hc]
      rfl
    | true =>
      rw [hr.reads h hc, List.any_cons, hc]
      cases Lexeme.recognize (c :: after) with
      | ok found => rfl
      | error reason =>
        cases reason with
        | unexpectedCharacter =>
          -- nothing is found here, and nothing by those behind it
          simp [outcome]
        | unterminatedString => rfl
        | unterminatedName => rfl

/-- What opens nothing is an unexpected character. -/
theorem recognize_unopened {c : Char} (h : opened.any (·.1 c) = false) (input : List Char) :
    Lexeme.recognize (c :: input) = .error .unexpectedCharacter := by
  simp only [opened, List.any_cons, List.any_nil, Bool.or_false, Bool.or_eq_false_iff,
    beq_eq_false_iff_ne] at h
  obtain ⟨hdigit, hsingle, hdouble, hsymbol, hword⟩ := h
  have hnone : Lexeme.readSymbol? (c :: input) = none := by
    have hmap := @symbolOf_eq c input input.head? fun _ _ => Iff.rfl
    rw [symbolOf_eq_none hsymbol] at hmap
    exact Option.map_eq_none_iff.mp hmap.symm
  rw [Lexeme.recognize, hdigit, hword, hnone]
  · rfl
  · exact hsingle
  · exact hdouble

/-- All recognizers together do what the scanner does at one lexeme. -/
theorem firstMatch_recognizers {c : Char} (h : SuffixAt text start (c :: after)) :
    firstMatch text start recognizers = outcome text start (Lexeme.recognize (c :: after)) := by
  have hmatch : firstMatch text start recognizers = _ := firstMatch_eq recognizes_opened h
  rw [hmatch]
  split
  · rfl
  · next hno => rw [recognize_unopened (Bool.eq_false_iff.mpr hno)]; rfl

end Cursor

end SqlScript

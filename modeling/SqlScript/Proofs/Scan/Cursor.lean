import SqlScript.Proofs.Scan.Pieces
import SqlScript.Proofs.Text.Bytes

/-!
# Scanning by byte offsets

A cursor is a source and a byte offset in it. It looks at single bytes, cuts the text by offsets and
stops with a fault wherever that cannot be done. It never has to: for every source and after any
number of calls it has done what the scanner does (`Source.cursor_faultless`).
-/

namespace SqlScript

/-- What must not happen to a text that is cut by byte offsets. -/
inductive Fault
  /-- The cursor would be past the end or inside a character. -/
  | position
  /-- A part of the text has an end past the end of the text or inside a character, or its ends are
  the wrong way round. -/
  | slice
  /-- A recognizer takes nothing, or more than there is. -/
  | extent
  /-- Digits that were recognized are no number. -/
  | numeral
  /-- A failure is past the end or inside a character, so that nothing can be shown for it. -/
  | remaining

/-- Why scanning stops before a text ends: it should not have, or the text is no script. -/
inductive Stop
  | fault (fault : Fault)
  | failed (e : ScanError)

/-- What a recognizer finds: where it ends, and what it stands for. -/
abbrev Found := Option (Nat × Kind)

/-- A number in decimal digits, of which there is at least one, with one point at most anywhere
among them. Signs and exponents are left out: nothing that is recognized has them. -/
def Binary64.parse? (text : List Char) : Option Binary64 :=
  let whole := text.takeWhile Char.isDigit
  match text.dropWhile Char.isDigit with
  | [] => if whole.isEmpty then none else some (ofDecimal (digitsValue whole) 0)
  | c :: places =>
    if c = '.' ∧ places.all Char.isDigit ∧ ¬ (whole ++ places).isEmpty then
      some (ofDecimal (digitsValue (whole ++ places)) places.length)
    else none

namespace Cursor

variable (text : List Char)

/-- Something that has to be there. -/
def expect {α : Type} (fault : Fault) : Option α → Except Stop α
  | some value => .ok value
  | none => .error (.fault fault)

@[simp] theorem expect_some {α : Type} (fault : Fault) (value : α) :
    expect fault (some value) = .ok value := rfl

@[simp] theorem ok_bind {ε α β : Type} (value : α) (next : α → Except ε β) :
    (Except.ok value >>= next) = next value := rfl

theorem bind_eq_ok {ε α β : Type} {x : Except ε α} {next : α → Except ε β} {result : β} :
    (x >>= next) = .ok result ↔ ∃ value, x = .ok value ∧ next value = .ok result := by
  cases x with
  | error e => exact ⟨nofun, nofun⟩
  | ok value => exact ⟨fun h => ⟨value, rfl, h⟩, fun ⟨_, rfl, h⟩ => h⟩

/-- Fails at an offset, with the text that is left there. -/
def failAt {α : Type} (position : Nat) (reason : ScanReason) : Except Stop α := do
  let remaining ← expect .remaining (slice? text position (byteLength text))
  throw (.failed ⟨position, String.ofList remaining, reason⟩)

/-- Where a character comes first at an offset or behind it. -/
def find (c : Char) (offset : Nat) : Except Stop (Option Nat) := do
  let rest ← expect .slice (slice? text offset (byteLength text))
  return if c ∈ rest then some (offset + byteLength (rest.takeWhile (· != c))) else none

/-- The first offset from here on at which a byte is not of this kind. -/
def skipWhile (p : Char → Bool) (offset : Nat) : Nat :=
  if _h : (peek? text offset).any p then skipWhile p (offset + 1) else offset
termination_by byteLength text - offset
decreasing_by
  have := lt_of_any_peek? _h
  omega

/-! ## Recognizers -/

/-- Where digits end. A point may be among them unless one has been seen. -/
def numberEnd (seen : Bool) (offset : Nat) : Nat :=
  match h : peek? text offset with
  | some b =>
    if b = '.' then if seen then offset else numberEnd true (offset + 1)
    else if b.isDigit then numberEnd seen (offset + 1)
    else offset
  | none => offset
termination_by byteLength text - offset
decreasing_by
  all_goals
    have := lt_of_peek? h
    omega

def number (start : Nat) : Except Stop Found :=
  if (peek? text start).any Char.isDigit then do
    let stop := numberEnd text false (start + 1)
    let digits ← expect .slice (slice? text start stop)
    let value ← expect .numeral (Binary64.parse? digits)
    return some (stop, .number value)
  else return none

theorem le_of_find {c : Char} {offset found : Nat} (h : find text c offset = .ok (some found)) :
    offset ≤ found := by
  obtain ⟨rest, -, h⟩ := bind_eq_ok.mp h
  simp only [pure, Except.pure, Except.ok.injEq, Option.ite_none_right_eq_some] at h
  obtain ⟨-, h⟩ := h
  cases h
  exact Nat.le_add_right _ _

/-- Takes chunks up to the next quote until none follows that quote. -/
def stringFrom (value : List Char) (offset : Nat) : Except Stop Found :=
  match _hfind : find text '\'' offset with
  | .error stop => .error stop
  | .ok none => failAt text (byteLength text) .unterminatedString
  | .ok (some close) => do
    let chunk ← expect .slice (slice? text offset close)
    if _hdouble : peek? text (close + 1) = some '\'' then
      stringFrom (value ++ chunk ++ ['\'']) (close + 2)
    else return some (close + 1, .string (String.ofList (value ++ chunk)))
termination_by byteLength text - offset
decreasing_by
  have := le_of_find text _hfind
  have := lt_of_peek? _hdouble
  omega

def string (start : Nat) : Except Stop Found :=
  if peek? text start = some '\'' then stringFrom text [] (start + 1) else return none

def quoted (start : Nat) : Except Stop Found :=
  if peek? text start = some '"' then do
    match ← find text '"' (start + 1) with
    | none => failAt text (byteLength text) .unterminatedName
    | some close =>
      let name ← expect .slice (slice? text (start + 1) close)
      return some (close + 1, .name (String.ofList name))
  else return none

/-- The length and the name of the symbol that begins with these bytes. -/
def symbolOf (first : Char) (next : Option Char) : Option (Nat × String) :=
  if first = '>' ∧ next = some '=' then some (2, ">=")
  else if first = '<' ∧ next = some '=' then some (2, "<=")
  else if first = '<' ∧ next = some '>' then some (2, "!=")
  else if first = '!' ∧ next = some '=' then some (2, "!=")
  else if first ∈ Lexeme.marks then some (1, String.ofList [first])
  else none

def symbol (start : Nat) : Except Stop Found :=
  return do
    let first ← peek? text start
    let (length, name) ← symbolOf first (peek? text (start + 1))
    return (start + length, .symbol name)

def word (start : Nat) : Except Stop Found :=
  if (peek? text start).any Lexeme.isWordStart then do
    let stop := skipWhile text Lexeme.isWordPart (start + 1)
    let letters ← expect .slice (slice? text start stop)
    return some (stop, .ofWord (String.ofList (letters.map Char.toUpper)))
  else return none

/-- The recognizers, in the order in which they are tried. -/
def recognizers : List (List Char → Nat → Except Stop Found) :=
  [number, string, quoted, symbol, word]

/-- The first match wins. -/
def firstMatch (start : Nat) : List (List Char → Nat → Except Stop Found) → Except Stop Found
  | [] => return none
  | recognizer :: more => do
    match ← recognizer text start with
    | some found => return some found
    | none => firstMatch start more

/-! ## Tokens -/

/-- Moves to an offset. -/
def moveTo (position : Nat) : Except Fault Nat :=
  if (cutAt? position text).isSome then .ok position else .error .position

def skipBlanks (position : Nat) : Except Fault Nat :=
  if _h : (peek? text position).any Scanner.isBlank then
    (moveTo text (position + 1)).bind fun _ => skipBlanks (position + 1)
  else .ok position
termination_by byteLength text - position
decreasing_by
  have := lt_of_any_peek? _h
  omega

/-- The token at an offset, and where it ends. -/
def token (source : Source) (start : Nat) : Except Stop (Token × Nat) := do
  let text := source.text.toList
  match ← firstMatch text start recognizers with
  | none => failAt text start .unexpectedCharacter
  | some (stop, kind) =>
    if start < stop ∧ stop ≤ byteLength text then
      let raw ← expect .slice (slice? text start stop)
      let stop ← (moveTo text stop).mapError .fault
      return (⟨kind, String.ofList raw, start, source⟩, stop)
    else throw (.fault .extent)

theorem le_of_skipBlanks {position start : Nat} (h : skipBlanks text position = .ok start) :
    position ≤ start := by
  fun_induction skipBlanks text position with
  | case1 position _ ih =>
    cases hmove : moveTo text (position + 1) with
    | error fault => rw [hmove] at h; cases h
    | ok next =>
      rw [hmove] at h
      exact Nat.le_of_succ_le (ih h)
  | case2 =>
    cases h
    exact Nat.le_refl _

theorem extent_of_token {source : Source} {start stop : Nat} {t : Token}
    (h : token source start = .ok (t, stop)) :
    start < stop ∧ stop ≤ byteLength source.text.toList := by
  obtain ⟨found, -, h⟩ := bind_eq_ok.mp h
  cases found with
  | none =>
    obtain ⟨_, -, h⟩ := bind_eq_ok.mp h
    cases h
  | some found =>
    simp only at h
    split at h
    · next hextent =>
      obtain ⟨_, -, h⟩ := bind_eq_ok.mp h
      obtain ⟨next, hmove, h⟩ := bind_eq_ok.mp h
      cases h
      rw [moveTo] at hmove
      split at hmove <;> cases hmove
      exact hextent
    · cases h

/-- All tokens from an offset on, or the first failure, and the offset where scanning stops. -/
def tokenizeFrom (source : Source) (position : Nat) :
    Except Fault (Except ScanError (List Token) × Nat) :=
  match _hskip : skipBlanks source.text.toList position with
  | .error fault => .error fault
  | .ok start =>
    if byteLength source.text.toList ≤ start then .ok (.ok [], start)
    else match _htoken : token source start with
      | .error (.fault fault) => .error fault
      | .error (.failed e) => .ok (.error e, start)
      | .ok (t, stop) => (tokenizeFrom source stop).map fun (result, position) =>
        (result.map (t :: ·), position)
termination_by byteLength source.text.toList - position
decreasing_by
  have := le_of_skipBlanks _ _hskip
  have := extent_of_token _htoken
  omega

end Cursor

/-! ## Calls -/

/-- A source and an offset in it. -/
structure Cursor where
  source : Source
  position : Nat

namespace Cursor

def ofSource (source : Source) : Cursor := ⟨source, 0⟩

def tokenize (c : Cursor) : Except Fault (Except ScanError (List Token) × Cursor) :=
  (tokenizeFrom c.source c.position).map fun (result, position) => (result, { c with position })

/-- What so many calls give, one after another, and the cursor behind them. -/
def calls : Nat → Cursor → Except Fault (List (Except ScanError (List Token)) × Cursor)
  | 0, c => .ok ([], c)
  | n + 1, c => do
    let (result, c) ← c.tokenize
    let (results, c) ← calls n c
    return (result :: results, c)

end Cursor

namespace Scanner

/-- What so many calls give, one after another, and the scanner behind them. -/
def calls : Nat → Scanner → List (Except ScanError (List Token)) × Scanner
  | 0, s => ([], s)
  | n + 1, s =>
    let (result, s) := s.tokenize
    let (results, s) := calls n s
    (result :: results, s)

/-- The cursor at a scanner's position. -/
def cursor (s : Scanner) : Cursor := ⟨s.source, s.position⟩

end Scanner

end SqlScript

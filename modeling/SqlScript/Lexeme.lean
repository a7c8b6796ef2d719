import SqlScript.Binary64.Decimal
import SqlScript.Text.Quoted
import SqlScript.Token

/-! Lexemes: the pieces that scripts are written with. `spell` writes a lexeme, `kind` says what
it stands for, and `recognize` finds the one that a text begins with, taking as much as it can.
What it finds, written out again, is what it took (`spell_append_of_recognize`). -/
namespace SqlScript

/-- Why a text begins with no lexeme. -/
inductive ScanReason
  | unexpectedCharacter
  | unterminatedString
  | unterminatedName
deriving DecidableEq, Repr

namespace ScanReason

def message : ScanReason → String
  | unexpectedCharacter => "unexpected character"
  | unterminatedString => "unterminated string"
  | unterminatedName => "unterminated quoted id"

end ScanReason

inductive Lexeme
  /-- Digits, and the digits behind a decimal point where there is one. -/
  | number (whole : List Char) (fraction : Option (List Char))
  /-- A text between single quotes. -/
  | string (text : List Char)
  /-- A name between double quotes. -/
  | quoted (name : List Char)
  | symbol (text : List Char)
  /-- A keyword or bare name. -/
  | word (letters : List Char)
deriving DecidableEq, Repr

namespace Lexeme

/-- How a lexeme is written. -/
def spell : Lexeme → List Char
  | number whole none => whole
  | number whole (some fraction) => whole ++ '.' :: fraction
  | string text => Quoted.write text
  | quoted name => '"' :: name ++ ['"']
  | symbol text => text
  | word letters => letters

/-- What a lexeme stands for. -/
def kind : Lexeme → Kind
  | number whole fraction =>
    let places := fraction.getD []
    .number (Binary64.ofDecimal (digitsValue (whole ++ places)) places.length)
  | string text => .string (String.ofList text)
  | quoted name => .name (String.ofList name)
  | symbol text => .symbol (if text = ['<', '>'] then "!=" else String.ofList text)
  | word letters => .ofWord (String.ofList (letters.map Char.toUpper))

/-- Can a word begin with this character? -/
def isWordStart (c : Char) : Bool := c.isAlpha || c == '_'

/-- Can a word go on with this character? -/
def isWordPart (c : Char) : Bool := c.isAlphanum || c == '_'

/-- The symbols of one character. -/
def marks : List Char := ['+', '-', '*', '/', '=', ';', ',', '(', ')', '.', '<', '>']

/-- Digits, with one decimal point at most. -/
def readNumber (input : List Char) : Lexeme × List Char :=
  let whole := input.takeWhile Char.isDigit
  match input.dropWhile Char.isDigit with
  | '.' :: rest => (number whole (some (rest.takeWhile Char.isDigit)), rest.dropWhile Char.isDigit)
  | rest => (number whole none, rest)

def readWord (input : List Char) : Lexeme × List Char :=
  (word (input.takeWhile isWordPart), input.dropWhile isWordPart)

/-- A symbol; the longer ones are tried first. -/
def readSymbol? : List Char → Option (Lexeme × List Char)
  | '>' :: '=' :: rest => some (symbol ['>', '='], rest)
  | '<' :: '=' :: rest => some (symbol ['<', '='], rest)
  | '<' :: '>' :: rest => some (symbol ['<', '>'], rest)
  | '!' :: '=' :: rest => some (symbol ['!', '='], rest)
  | c :: rest => if c ∈ marks then some (symbol [c], rest) else none
  | [] => none

/-- Reads behind an opening single quote. -/
def readString (input : List Char) : Except ScanReason (Lexeme × List Char) :=
  match Quoted.read? input with
  | some (text, rest) => .ok (string text, rest)
  | none => .error .unterminatedString

/-- Reads behind an opening double quote. -/
def readQuoted (input : List Char) : Except ScanReason (Lexeme × List Char) :=
  match input.dropWhile (· != '"') with
  | _ :: rest => .ok (quoted (input.takeWhile (· != '"')), rest)
  | [] => .error .unterminatedName

/-- The lexeme that a text begins with, and the text behind it. -/
def recognize : List Char → Except ScanReason (Lexeme × List Char)
  | [] => .error .unexpectedCharacter
  | '\'' :: input => readString input
  | '"' :: input => readQuoted input
  | c :: input =>
    if c.isDigit then .ok (readNumber (c :: input))
    else if isWordStart c then .ok (readWord (c :: input))
    else match readSymbol? (c :: input) with
      | some found => .ok found
      | none => .error .unexpectedCharacter

theorem spell_readNumber (input : List Char) :
    (readNumber input).1.spell ++ (readNumber input).2 = input := by
  unfold readNumber
  split
  · next rest h =>
    simp only [spell, List.append_assoc, List.cons_append, List.takeWhile_append_dropWhile]
    rw [← h, List.takeWhile_append_dropWhile]
  · exact List.takeWhile_append_dropWhile

theorem spell_readSymbol? {input rest : List Char} {l : Lexeme}
    (h : readSymbol? input = some (l, rest)) : l.spell ++ rest = input := by
  revert h
  fun_cases readSymbol? input <;> intro h <;> cases h <;> rfl

theorem spell_readWord (input : List Char) :
    (readWord input).1.spell ++ (readWord input).2 = input :=
  List.takeWhile_append_dropWhile

theorem spell_readString {input rest : List Char} {l : Lexeme}
    (h : readString input = .ok (l, rest)) : l.spell ++ rest = '\'' :: input := by
  unfold readString at h
  split at h
  · next hread =>
    cases h
    simp [spell, Quoted.write, Quoted.double_of_read? hread]
  · cases h

theorem spell_readQuoted {input rest : List Char} {l : Lexeme}
    (h : readQuoted input = .ok (l, rest)) : l.spell ++ rest = '"' :: input := by
  unfold readQuoted at h
  split at h
  · next c after hdrop =>
    cases h
    have hc : c = '"' := by
      have := List.head?_dropWhile_not (· != '"') input
      simpa [hdrop] using this
    have happend := List.takeWhile_append_dropWhile (p := (· != '"')) (l := input)
    rw [hdrop, hc] at happend
    simp [spell, happend]
  · cases h

/-- Recognizing takes the written form of what it finds off the front of the text. -/
theorem spell_append_of_recognize {input rest : List Char} {l : Lexeme}
    (h : recognize input = .ok (l, rest)) : l.spell ++ rest = input := by
  revert h
  fun_cases recognize input <;> intro h
  · cases h
  · exact spell_readString h
  · exact spell_readQuoted h
  · next c input _ _ _ =>
    have := spell_readNumber (c :: input)
    rwa [Except.ok.inj h] at this
  · next c input _ _ _ _ =>
    have := spell_readWord (c :: input)
    rwa [Except.ok.inj h] at this
  · next found hfound =>
    rw [Except.ok.inj h] at hfound
    exact spell_readSymbol? hfound
  · cases h

/-- A recognized lexeme is never written as nothing. -/
theorem spell_ne_nil_of_recognize {input rest : List Char} {l : Lexeme}
    (h : recognize input = .ok (l, rest)) : l.spell ≠ [] := by
  revert h
  fun_cases recognize input <;> intro h
  · cases h
  · unfold readString at h
    split at h <;> cases h
    simp [spell, Quoted.write]
  · unfold readQuoted at h
    split at h <;> cases h
    simp [spell]
  · next c input _ _ hc =>
    replace h := Except.ok.inj h
    unfold readNumber at h
    split at h <;> cases h <;> simp [spell, hc]
  · next c input _ _ _ hc =>
    cases h
    have : isWordPart c := by
      simp only [isWordStart, isWordPart, Char.isAlphanum, Bool.or_eq_true] at hc ⊢
      exact hc.imp_left .inl
    simp [spell, this]
  · next c input _ _ _ _ found hfound =>
    cases h
    revert hfound
    fun_cases readSymbol? (c :: input) <;> intro hfound <;> cases hfound <;> simp [spell]
  · cases h

/-- What stands behind a recognized lexeme is shorter than the text it was found in. -/
theorem length_lt_of_recognize {input rest : List Char} {l : Lexeme}
    (h : recognize input = .ok (l, rest)) : rest.length < input.length := by
  have hspell := List.length_pos_iff.2 (spell_ne_nil_of_recognize h)
  rw [← spell_append_of_recognize h, List.length_append]
  omega

end Lexeme

end SqlScript

import SqlScript.Lexeme
import SqlScript.Text.Place

/-! Cutting a script into tokens. A scanner holds what is left of its source and the byte offset
at which that begins. `tokenize` takes everything: it gives all tokens or the first failure, and
leaves the scanner at the end or at the lexeme that failed, so that asking again gives no tokens
or the same failure. -/
namespace SqlScript

/-- Why and where a script cannot be cut into tokens. -/
structure ScanError where
  position : Nat
  /-- What stands at that position and behind it. -/
  remaining : String
  reason : ScanReason
deriving DecidableEq, Repr

namespace ScanError

def message (e : ScanError) : String :=
  e.reason.message ++ " at position " ++ toString e.position ++ ": Lexer error at: " ++ e.remaining

end ScanError

/-- A source and how far it has been cut. -/
structure Scanner where
  source : Source
  position : Nat
  rest : List Char
deriving Repr

namespace Scanner

def ofSource (source : Source) : Scanner := ⟨source, 0, source.text.toList⟩

/-- Blanks are the space and every character below it. -/
def isBlank (c : Char) : Bool := c ≤ ' '

/-- The scanner moved behind a text that stands at its position. -/
def advance (s : Scanner) (taken rest : List Char) : Scanner :=
  { s with position := s.position + byteLength taken, rest }

def skipBlanks (s : Scanner) : Scanner :=
  s.advance (s.rest.takeWhile isBlank) (s.rest.dropWhile isBlank)

/-- The failure to recognize a lexeme. An unclosed quote runs to the end of the source. -/
def failure (s : Scanner) : ScanReason → ScanError
  | .unexpectedCharacter => ⟨s.position, String.ofList s.rest, .unexpectedCharacter⟩
  | reason => ⟨s.position + byteLength s.rest, "", reason⟩

/-- The token that a lexeme at the scanner's position makes. -/
def token (s : Scanner) (l : Lexeme) : Token :=
  ⟨l.kind, String.ofList l.spell, s.position, s.source⟩

@[simp] theorem rest_skipBlanks (s : Scanner) : s.skipBlanks.rest = s.rest.dropWhile isBlank := rfl

/-- All tokens that are left, or the first failure. -/
def tokenize (s : Scanner) : Except ScanError (List Token) × Scanner :=
  let start := s.skipBlanks
  if start.rest.isEmpty then (.ok [], start)
  else match _h : Lexeme.recognize start.rest with
    | .error reason => (.error (start.failure reason), start)
    | .ok (l, rest) =>
      match tokenize (start.advance l.spell rest) with
      | (.ok tokens, stop) => (.ok (start.token l :: tokens), stop)
      | (.error e, stop) => (.error e, stop)
termination_by s.rest.length
decreasing_by
  have hlt := Lexeme.length_lt_of_recognize _h
  have hle := (List.dropWhile_sublist isBlank (l := s.rest)).length_le
  exact Nat.lt_of_lt_of_le hlt hle

end Scanner

namespace Source

/-- The tokens of a source, or why it has none. -/
def tokens (source : Source) : Except ScanError (List Token) := (Scanner.ofSource source).tokenize.1

end Source

end SqlScript

import SqlScript.Event

/-! Everything that can go wrong between a script and what is made of it. -/
namespace SqlScript

inductive Error
  /-- A file could not be read or written. -/
  | file (message : String)
  | scan (e : ScanError)
  | read (d : Diagnostic)
  /-- The tree could not be written. -/
  | encode (message : String)
  /-- There are no tokens. -/
  | empty

namespace Error

/-- What is wrong, and with what. -/
def message : Error → String
  | file message => "I/O error: " ++ message
  | scan e => "lex error: " ++ e.message
  | read d => "parse error: " ++ d.summary
  | encode message => "serialization error: " ++ message
  | empty => "Lexer returned empty result"

/-- What is wrong, if something else was the reason. -/
def source? : Error → Option String
  | file message => some message
  | scan e => some e.message
  | read d => some d.summary
  | encode message => some message
  | empty => none

end Error

/-- The script in a source. -/
def readSource (maxDepth : Nat) (source : Source) :
    Except Error (List (Statement (Span Token))) := do
  let tokens ← (scanSource source).2.mapError .scan
  (readTokens maxDepth tokens).2.mapError fun e => .read e.diagnostic

end SqlScript

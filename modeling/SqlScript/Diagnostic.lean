import SqlScript.Text.Place
import SqlScript.Token

/-! Messages about a token, in one line or with the line of the script that the token stands in. -/
namespace SqlScript

structure Diagnostic where
  token : Token
  message : String

namespace Diagnostic

/-- The message, with the token it is about. -/
def summary (d : Diagnostic) : String :=
  d.message ++ " (at " ++ d.token.kind.label ++ " \x60" ++ d.token.raw ++ "\x60, position " ++
    toString d.token.position ++ ")"

/-- The file and line number, the line itself, a caret below the token, and the message. -/
def render (d : Diagnostic) : String :=
  let text := d.token.source.text.toList
  let place := Place.ofOffset text d.token.position
  d.token.source.file ++ ":" ++ toString place.line ++ "\n" ++
    String.ofList (lineAt text d.token.position) ++ "\n" ++
    String.ofList (List.replicate place.column ' ') ++ "^\nParse error: " ++ d.message

/-- Equality of diagnostics, the tokens being compared as tokens. -/
def same (d e : Diagnostic) : Bool := d.token.same e.token && d.message == e.message

end Diagnostic

end SqlScript

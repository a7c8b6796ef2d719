import SqlScript.Reader
import SqlScript.Scanner

/-! Scripts from text to tree, and what is reported on the way: how scanning went, each ORDER BY
that was read but belongs to nothing, and how reading went. -/
namespace SqlScript

inductive Event
  | scanned (file : String) (tokens : Nat)
  | scanFailed (file : String) (position : Nat) (reason : ScanReason)
  | orderDropped (position : Nat)
  | read (statements tokens : Nat)
  | readFailed (message : String) (position : Nat)
deriving DecidableEq, Repr

namespace Event

/-- Is this more than a note on progress? -/
def isWarning : Event → Bool
  | orderDropped _ => true
  | _ => false

/-- The name of the event and, if there is one, a message. -/
def messages : Event → List String
  | scanned _ _ => ["lex.complete"]
  | scanFailed _ _ _ => ["lex.failed"]
  | orderDropped _ => ["order_by.dropped: ORDER BY without FROM or WHERE"]
  | read _ _ => ["parse.complete"]
  | readFailed message _ => ["parse.failed", message]

/-- The counts and offsets that an event tells. -/
def numbers : Event → List (String × Nat)
  | scanned _ tokens => [("tokens", tokens)]
  | scanFailed _ position _ => [("position", position)]
  | orderDropped position => [("position", position)]
  | read statements tokens => [("statements", statements), ("tokens", tokens)]
  | readFailed _ position => [("position", position)]

/-- The texts that an event tells. -/
def texts : Event → List (String × String)
  | scanned file _ => [("file", file)]
  | scanFailed file _ reason => [("file", file), ("reason", reason.message)]
  | _ => []

end Event

/-- The tokens of a source and what is reported about them. -/
def scanSource (source : Source) : List Event × Except ScanError (List Token) :=
  match source.tokens with
  | .ok tokens => ([.scanned source.file tokens.length], .ok tokens)
  | .error e => ([.scanFailed source.file e.position e.reason], .error e)

/-- The script that tokens are and what is reported about it; nothing if there are no tokens. -/
def readTokens (maxDepth : Nat) (tokens : List Token) :
    List Event × Except SyntaxError (List (Statement (Span Token))) :=
  match Reader.ofTokens? maxDepth tokens with
  | none => ([], .ok [])
  | some reader =>
    let (dropped, result) := reader.script
    let last := match result with
      | .ok statements => Event.read statements.length tokens.length
      | .error e => .readFailed e.cause.message e.token.position
    (dropped.map (fun t => .orderDropped t.position) ++ [last], result)

end SqlScript

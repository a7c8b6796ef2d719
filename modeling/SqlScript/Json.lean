import SqlScript.Binary64.Layout

/-! JSON documents with ordered fields and the one way they are written: an entry a line, each
level indented by two more spaces. -/
namespace SqlScript

inductive Json
  | null
  | bool (value : Bool)
  | number (value : Binary64)
  | string (value : String)
  | array (items : List Json)
  | object (fields : List (String × Json))

namespace Json

/-- A hexadecimal digit. -/
def hexDigit (n : Nat) : Char := "0123456789abcdef".toList.getD n '0'

/-- How a character stands in a string. Only quotes, backslashes and control characters are
written in another way. -/
def escapeChar (c : Char) : List Char :=
  if c = '"' then ['\\', '"']
  else if c = '\\' then ['\\', '\\']
  else if c = '\x08' then ['\\', 'b']
  else if c = '\x0c' then ['\\', 'f']
  else if c = '\n' then ['\\', 'n']
  else if c = '\r' then ['\\', 'r']
  else if c = '\t' then ['\\', 't']
  else if c < ' ' then ['\\', 'u', '0', '0', hexDigit (c.toNat / 16), hexDigit (c.toNat % 16)]
  else [c]

def renderString (s : String) : String :=
  "\"" ++ String.ofList (s.toList.flatMap escapeChar) ++ "\""

/-- What is not a finite number is written as `null`. -/
def renderNumber (x : Binary64) : String := if x.isFinite then Layout.json.write x else "null"

/-- A new line at an indentation level. -/
def newline (level : Nat) : String := "\n" ++ String.ofList (List.replicate (2 * level) ' ')

mutual

/-- What the text of a document consists of, if its own lines stand at an indentation level. -/
def pieces (level : Nat) : Json → List String
  | null => ["null"]
  | bool value => [if value then "true" else "false"]
  | number value => [renderNumber value]
  | string value => [renderString value]
  | array [] => ["[]"]
  | array (item :: items) =>
    "[" :: newline (level + 1) :: (item.pieces (level + 1) ++ itemPieces (level + 1) items ++
      [newline level, "]"])
  | object [] => ["\x7b\x7d"]
  | object (field :: fields) =>
    "\x7b" :: newline (level + 1) :: (fieldPieces (level + 1) field ++
      fieldsPieces (level + 1) fields ++ [newline level, "\x7d"])

/-- Further items, each behind a comma. -/
def itemPieces (level : Nat) : List Json → List String
  | [] => []
  | item :: items => "," :: newline level :: (item.pieces level ++ itemPieces level items)

def fieldPieces (level : Nat) : String × Json → List String
  | (key, value) => renderString key :: ": " :: value.pieces level

/-- Further fields, each behind a comma. -/
def fieldsPieces (level : Nat) : List (String × Json) → List String
  | [] => []
  | field :: fields =>
    "," :: newline level :: (fieldPieces level field ++ fieldsPieces level fields)

end

/-- The text of a document. -/
def pretty (j : Json) : String := String.join (j.pieces 0)

end Json

end SqlScript

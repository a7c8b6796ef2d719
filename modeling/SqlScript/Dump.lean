import SqlScript.Text.Printable

/-! Values written out for inspection: named records with their fields, named wrappers, lists and
quoted texts, all on one line. -/
namespace SqlScript

inductive Dump
  /-- A name or number, written as it is. -/
  | word (text : String)
  | quoted (text : String)
  | list (items : List Dump)
  | wrap (name : String) (content : Dump)
  | record (name : String) (fields : List (String × Dump))

namespace Dump

/-- A character by its number. -/
def escapeCode (c : Char) : String :=
  "\\u\x7b" ++ String.ofList (Nat.toDigits 16 c.toNat) ++ "\x7d"

/-- How a character stands in a quoted text. -/
def escapeChar (c : Char) : String :=
  if c = '"' then "\\\""
  else if c = '\\' then "\\\\"
  else if c = '\n' then "\\n"
  else if c = '\r' then "\\r"
  else if c = '\t' then "\\t"
  else if c = '\x00' then "\\0"
  else if isPrintable c then c.toString
  else escapeCode c

def quote (s : String) : String := "\"" ++ String.join (s.toList.map escapeChar) ++ "\""

mutual

def render : Dump → String
  | word text => text
  | quoted text => quote text
  | list items => "[" ++ ", ".intercalate (renderItems items) ++ "]"
  | wrap name content => name ++ "(" ++ content.render ++ ")"
  | record name fields => name ++ " \x7b " ++ ", ".intercalate (renderFields fields) ++ " \x7d"

def renderItems : List Dump → List String
  | [] => []
  | item :: items => item.render :: renderItems items

def renderFields : List (String × Dump) → List String
  | [] => []
  | (name, value) :: fields => (name ++ ": " ++ value.render) :: renderFields fields

end

def nat (n : Nat) : Dump := word (toString n)

def option : Option Dump → Dump
  | none => word "None"
  | some value => wrap "Some" value

end Dump

end SqlScript

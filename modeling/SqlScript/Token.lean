import SqlScript.Binary64.Basic

/-! Tokens: what a piece of a script stands for, how it was written and where. -/
namespace SqlScript

/-- A script's text and the label it goes by in messages. -/
structure Source where
  file : String
  text : String
deriving DecidableEq, Repr, Inhabited

/-- What a token stands for. Keywords and bare names are in upper case; `!=` stands for both
spellings of inequality. -/
inductive Kind
  | number (value : Binary64)
  | string (value : String)
  | name (text : String)
  | keyword (word : String)
  | symbol (text : String)
deriving DecidableEq, Repr

namespace Kind

/-- The word for a kind in messages. -/
def label : Kind → String
  | number _ => "number"
  | string _ => "string"
  | name _ => "id"
  | keyword _ => "keyword"
  | symbol _ => "symbol"

/-- The text a token stands for; numbers have none. -/
def text? : Kind → Option String
  | number _ => none
  | string text | name text | keyword text | symbol text => some text

/-- Equality of kinds, numbers being compared as numbers. -/
def same : Kind → Kind → Bool
  | number x, number y => x.same y
  | k, l => k == l

/-- The words that are keywords and cannot be bare names. -/
def reserved : List String :=
  ["USE", "SELECT", "INSERT", "DELETE", "FROM", "WHERE", "IS", "OR", "AND", "NOT", "NULL",
    "ORDER", "GROUP", "BY", "SORT", "INTO", "VALUES", "NAMES"]

/-- What a word in upper case stands for. -/
def ofWord (word : String) : Kind := if word ∈ reserved then keyword word else name word

end Kind

/-- One piece of a script. -/
structure Token where
  kind : Kind
  /-- The piece as it was written. -/
  raw : String
  /-- The byte offset at which it begins. -/
  position : Nat
  source : Source
deriving DecidableEq, Repr

namespace Token

/-- Equality of tokens, wherever they come from. -/
def same (s t : Token) : Bool :=
  s.kind.same t.kind && s.raw == t.raw && s.position == t.position

end Token

end SqlScript

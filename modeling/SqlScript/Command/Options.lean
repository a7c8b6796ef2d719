/-! The options of the command line. Arguments are taken from left to right; an option takes the
argument behind it whatever that looks like, and of repeated options the last one counts. -/
namespace SqlScript.Command

structure Options where
  /-- The file to read; otherwise standard input is read. -/
  input : Option String := none
  /-- The name of the script in messages. -/
  label : Option String := none
  /-- Where a tree goes that is too large to be printed. -/
  output : String := "out.ast"
  /-- Trees of fewer bytes are printed. -/
  inlineLimit : Nat := 10000
deriving DecidableEq, Repr

inductive OptionError
  /-- An option that needs something behind it stands last. -/
  | missing (option : String) (what : String)
  | invalidLimit (text : String)
  | unknown (option : String)
  | secondInput
deriving DecidableEq, Repr

namespace OptionError

def message : OptionError → String
  | missing option what => option ++ " requires a " ++ what
  | invalidLimit text => "invalid --inline-limit: " ++ text
  | unknown option => "unknown option " ++ option
  | secondInput => "only one input file may be given"

end OptionError

/-- Reads decimal digits, with or without a plus sign before them, as a 64-bit number. -/
def readLimit? (text : String) : Option Nat :=
  let digits := match text.toList with
    | '+' :: rest => rest
    | chars => chars
  if digits ≠ [] ∧ digits.all Char.isDigit then
    let n := digits.foldl (fun n c => 10 * n + (c.toNat - '0'.toNat)) 0
    if n < 18446744073709551616 then some n else none
  else none

namespace Options

/-- Takes in arguments; gives nothing when help is asked for. -/
def read (o : Options) : List String → Except OptionError (Option Options)
  | [] => .ok (some o)
  | arg :: args =>
    if arg = "-h" ∨ arg = "--help" then .ok none
    else if arg = "--name" then
      match args with
      | [] => .error (.missing arg "value")
      | label :: args => { o with label }.read args
    else if arg = "--out" then
      match args with
      | [] => .error (.missing arg "path")
      | output :: args => { o with output }.read args
    else if arg = "--inline-limit" then
      match args with
      | [] => .error (.missing arg "number")
      | text :: args =>
        match readLimit? text with
        | none => .error (.invalidLimit text)
        | some inlineLimit => { o with inlineLimit }.read args
    else if arg.startsWith "--" then .error (.unknown arg)
    else if o.input.isSome then .error .secondInput
    else { o with input := arg }.read args

def ofArgs (args : List String) : Except OptionError (Option Options) := ({} : Options).read args

end Options

/-- How the program is called. -/
def usage : String :=
  let o : Options := {}
  "quarry v0.1.0\n" ++
  "Usage: quarry [--name LABEL] [--out PATH] [--inline-limit N] [FILE]\n" ++
  "\n" ++
  "  FILE                SQL script to parse (default: stdin)\n" ++
  "  --name LABEL        File name shown in diagnostics\n" ++
  "  --out PATH          Where large ASTs are written (default: " ++ o.output ++ ")\n" ++
  "  --inline-limit N    Print the AST inline below N characters (default: " ++
    toString o.inlineLimit ++ ")\n"

end SqlScript.Command

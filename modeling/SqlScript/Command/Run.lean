import SqlScript.Command.FileTree
import SqlScript.Command.Options
import SqlScript.Error
import SqlScript.Tree.Json

/-! The command line: from arguments, standard input and files to what is printed and what is
written. A tree is printed if its JSON is short and otherwise saved to a file. -/
namespace SqlScript.Command

/-- What the program prints, and its exit status. -/
structure Answer where
  status : Nat
  out : String
  err : String
deriving DecidableEq, Repr

/-- What is left to do once the tree is there. -/
inductive Ending
  | answer (answer : Answer)
  /-- A text is to be written to a file; what follows if that can be done. -/
  | save (path text : String) (saved : Answer)

namespace Answer

/-- A message on standard output. -/
def good (out : String) : Answer := ⟨0, out, ""⟩

/-- A message on standard error. -/
def bad (err : String) : Answer := ⟨1, "", err⟩

/-- Nothing to read is no failure; failures to read come with their own messages. -/
def ofError : Error → Answer
  | .empty => good (Error.empty.message ++ "\n")
  | .scan e =>
    bad ("Lexer error at: " ++ e.remaining ++ "\n(" ++ e.reason.message ++ " at position " ++
      toString e.position ++ ")\n")
  | .read d => bad (d.render ++ "\n")
  | e => bad ("Error: " ++ e.message ++ "\n")

end Answer

/-- The options, unless the arguments ask for help or are wrong. -/
def start (args : List String) : Except Answer Options :=
  match Options.ofArgs args with
  | .error e => .error ⟨2, usage, "Error: " ++ e.message ++ "\n"⟩
  | .ok none => .error (.good usage)
  | .ok (some o) => .ok o

/-- The script and its tokens, from the bytes that were read or the reason why none were. -/
def prepare (o : Options) (input : Except String ByteArray) : Except Error (Source × List Token) :=
  do
    let bytes ← input.mapError .file
    let some text := String.fromUTF8? bytes | .error (.file "stream did not contain valid UTF-8")
    let source : Source := ⟨o.label.getD (o.input.getD "<stdin>"), text⟩
    let tokens ← (scanSource source).2.mapError .scan
    if tokens.isEmpty then .error .empty else .ok (source, tokens)

/-- The script that tokens are. -/
def treeOf (tokens : List Token) : Except Error (List (Statement (Span Token))) :=
  (readTokens Reader.defaultDepth tokens).2.mapError fun e => .read e.diagnostic

/-- How long reading took. -/
def timeText (nanoseconds : Nat) : String :=
  "parse execution time: " ++ fixedText 3 nanoseconds 1000000 ++ " ms"

/-- How many million bytes were read in a second. -/
def rateText (bytes nanoseconds : Nat) : String :=
  fixedText 1 (bytes * 1000) (max nanoseconds 1) ++ " mb/s"

/-- What is done with the tree of a source that took a time to read. -/
def conclude (o : Options) (source : Source) (statements : List (Statement (Span Token)))
    (nanoseconds : Nat) : Ending :=
  let json := scriptJson statements
  let size := json.utf8ByteSize
  if size < o.inlineLimit then
    .answer (.good ("ast: " ++ json ++ "\n" ++ timeText nanoseconds ++ "\n"))
  else
    .save o.output json <| .good <|
      "Saved " ++ (Binary64.ofDecimal size 6).toFixed 2 ++ "M characters to " ++ o.output ++ "\n" ++
      timeText nanoseconds ++ ", " ++ rateText source.text.utf8ByteSize nanoseconds ++ "\n"

/-! ## The program

It runs in the monad of its system, be that the operating system's or one of states. -/

variable {m : Type → Type} (system : System m)

/-- Reads the input file or, if none is named, standard input. -/
def Options.fetch (o : Options) : m (Except String ByteArray) :=
  match o.input with
  | none => system.stdin
  | some path => system.read path

variable [Monad m]

/-- Does what is left to do. -/
def Ending.carryOut : Ending → m Answer
  | answer given => pure given
  | save path text saved => do
    match ← system.write path text.toUTF8 with
    | .ok () => pure saved
    | .error message => pure (.ofError (.file message))

/-- Reads the tokens of a source, and does with their tree what the options say. -/
def treat (o : Options) (source : Source) (tokens : List Token) : m Answer := do
  let started ← system.now
  match treeOf tokens with
  | .error e => pure (.ofError e)
  | .ok statements => (conclude o source statements (← system.elapsed started)).carryOut system

/-- The whole program but for printing the answer. -/
def program (args : List String) : m Answer := do
  match start args with
  | .error answer => pure answer
  | .ok o =>
    match prepare o (← o.fetch system) with
    | .error e => pure (.ofError e)
    | .ok (source, tokens) => treat system o source tokens

/-- The program on the files of a tree. -/
def run (args : List String) (stdin : ByteArray) (t : FileTree) (nanoseconds : Nat) :
    Answer × FileTree :=
  (program (FileTree.system stdin nanoseconds) args).run t

end SqlScript.Command

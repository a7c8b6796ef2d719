import SqlScript.Command.System

/-! Directories and files by their places, as a system to run the program on. A place is the list
of names from the root down. -/
namespace SqlScript.Command

/-- Why a file cannot be read or written. -/
inductive FileError
  | notFound
  | notDirectory
  | isDirectory
  | nameTooLong
deriving DecidableEq, Repr

namespace FileError

def message : FileError → String
  | notFound => "No such file or directory (os error 2)"
  | notDirectory => "Not a directory (os error 20)"
  | isDirectory => "Is a directory (os error 21)"
  | nameTooLong => "File name too long (os error 36)"

end FileError

structure FileTree where
  /-- The working directory, where the paths start that do not start at the root. -/
  home : List String
  /-- Directories that are there with or without files in them. -/
  directories : List (List String) := []
  files : List (List String × ByteArray)

namespace FileTree

/-- The tree of a working directory with nothing but these files. -/
def ofFiles (files : List (List String × ByteArray)) : FileTree :=
  let home := ["tmp", "work"]
  { home, files := files.map fun file => (home ++ file.1, file.2) }

instance : Coe (List (List String × ByteArray)) FileTree := ⟨ofFiles⟩

/-- The bytes of the file at a place. -/
def find? (t : FileTree) (place : List String) : Option ByteArray :=
  (t.files.find? fun file => file.1 == place).map Prod.snd

/-- Is there a directory at this place? Whatever lies above a directory or a file is one, too. -/
def hasDirectory (t : FileTree) (place : List String) : Bool :=
  (t.home :: t.directories).any (place.isPrefixOf ·) ||
    t.files.any fun file => place.isPrefixOf file.1 && place != file.1

/-- Walks from a place down a path, whose last part need not exist. Part `.` stays where it is and
`..` goes up; above the root there is the root. -/
def walk (t : FileTree) (place : List String) : List String → Except FileError (List String)
  | [] => .ok place
  | part :: parts =>
    if (t.find? place).isSome then .error .notDirectory
    else if !t.hasDirectory place then .error .notFound
    else if part = "" ∨ part = "." then t.walk place parts
    else if part = ".." then t.walk place.dropLast parts
    else if 255 < part.utf8ByteSize then .error .nameTooLong
    else t.walk (place ++ [part]) parts

/-- The place that a path names. -/
def resolve (t : FileTree) (path : List Char) : Except FileError (List String) :=
  if path.isEmpty then .error .notFound
  else if 4096 ≤ (String.ofList path).utf8ByteSize then .error .nameTooLong
  else
    let start := if path.head? == some '/' then [] else t.home
    t.walk start ((path.splitOn '/').map String.ofList)

def read (t : FileTree) (path : String) : Except FileError ByteArray := do
  let place ← t.resolve path.toList
  match t.find? place with
  | some bytes => .ok bytes
  | none => .error (if t.hasDirectory place then .isDirectory else .notFound)

/-- Writes a file anew; all other files stay as they are. A path that ends in a slash can only
name a directory. -/
def write (t : FileTree) (path : String) (bytes : ByteArray) : Except FileError FileTree := do
  let trimmed := (path.toList.reverse.dropWhile (· == '/')).reverse
  let place ← t.resolve (if trimmed.isEmpty then path.toList else trimmed)
  if path.toList.getLast? == some '/' || t.hasDirectory place then .error .isDirectory
  else .ok { t with files := (place, bytes) :: t.files.filter fun file => file.1 != place }

/-- The system whose files are those of a tree. Standard input and the time that passes are given
with it. -/
def system (stdin : ByteArray) (nanoseconds : Nat) : System (StateM FileTree) where
  stdin := pure (.ok stdin)
  read path := do pure (((← get).read path).mapError FileError.message)
  write path bytes := do
    match (← get).write path bytes with
    | .ok t => set t; pure (.ok ())
    | .error e => pure (.error e.message)
  now := pure 0
  elapsed _ := pure nanoseconds

end FileTree

end SqlScript.Command

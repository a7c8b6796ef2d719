import SqlScript.Command.Run

/-! The program itself, on the operating system's files and its clock. -/
namespace SqlScript.Command

/-- The system's own message, with its number. -/
def systemMessage : IO.Error → String
  | .noFileOrDirectory _ code details | .noSuchThing _ code details
  | .inappropriateType _ code details | .permissionDenied _ code details
  | .resourceExhausted _ code details | .alreadyExists _ code details
  | .invalidArgument _ code details | .interrupted _ code details
  | .otherError code details | .resourceBusy code details | .resourceVanished code details
  | .hardwareFault code details | .unsatisfiedConstraints code details
  | .illegalOperation code details | .protocolError code details
  | .unsupportedOperation code details | .timeExpired code details =>
    details ++ " (os error " ++ toString code ++ ")"
  | .userError message => message
  | .unexpectedEof => "unexpected end of file"

/-- The result of an action, a failure being its message. -/
def attempt {α : Type} (action : IO α) : IO (Except String α) := do
  match ← action.toBaseIO with
  | .ok value => pure (.ok value)
  | .error e => pure (.error (systemMessage e))

/-- Everything that is left on a stream, behind what has been read. -/
partial def readAll (stream : IO.FS.Stream) (bytes : ByteArray) : IO ByteArray := do
  let more ← stream.read 65536
  if more.isEmpty then pure bytes else readAll stream (bytes ++ more)

/-- The calls of the operating system. -/
def operatingSystem : System IO where
  stdin := do attempt (readAll (← IO.getStdin) .empty)
  read path := attempt (IO.FS.withFile path .read fun file => file.readBinToEnd)
  write path bytes := attempt (IO.FS.writeBinFile path bytes)
  now := IO.monoNanosNow
  elapsed start := do pure ((← IO.monoNanosNow) - start)

/-- Prints an answer and gives its exit status. -/
def report (answer : Answer) : IO UInt32 := do
  IO.print answer.out
  IO.eprint answer.err
  pure (UInt32.ofNat answer.status)

end SqlScript.Command

open SqlScript.Command in
def main (args : List String) : IO UInt32 := do report (← program operatingSystem args)

/-! What the program asks of the system that it runs on. -/
namespace SqlScript.Command

/-- The calls of a system; one that fails gives its message. -/
structure System (m : Type → Type) where
  /-- Everything on standard input. -/
  stdin : m (Except String ByteArray)
  /-- The bytes of the file that a path names. -/
  read (path : String) : m (Except String ByteArray)
  /-- Writes the file that a path names anew. -/
  write (path : String) (bytes : ByteArray) : m (Except String Unit)
  /-- The time, in nanoseconds. -/
  now : m Nat
  /-- The nanoseconds since a time. -/
  elapsed (start : Nat) : m Nat

end SqlScript.Command

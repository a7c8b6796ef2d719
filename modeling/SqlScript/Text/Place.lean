/-! Byte offsets into a text, and the line and column they stand for. Offsets count UTF-8 bytes;
lines and columns count from zero, columns in characters. -/
namespace SqlScript

/-- The UTF-8 length of a text in bytes. -/
def byteLength : List Char → Nat
  | [] => 0
  | c :: text => c.utf8Size + byteLength text

@[simp] theorem byteLength_nil : byteLength [] = 0 := rfl

@[simp] theorem byteLength_cons (c : Char) (text : List Char) :
    byteLength (c :: text) = c.utf8Size + byteLength text := rfl

@[simp] theorem byteLength_append (s t : List Char) :
    byteLength (s ++ t) = byteLength s + byteLength t := by
  induction s with
  | nil => simp
  | cons c s ih => simp [ih, Nat.add_assoc]

/-- The texts before and after a byte offset, if a character begins there or the text ends
there. -/
def cutAt? : Nat → List Char → Option (List Char × List Char)
  | 0, text => some ([], text)
  | _ + 1, [] => none
  | n + 1, c :: text =>
    if c.utf8Size ≤ n + 1 then
      (cutAt? (n + 1 - c.utf8Size) text).map fun (before, after) => (c :: before, after)
    else none

/-- The texts before and after a byte offset. An offset past the end or inside a character
counts as the end. -/
def cutAt (offset : Nat) (text : List Char) : List Char × List Char :=
  (cutAt? offset text).getD (text, [])

/-- A line of a text and a column in it. -/
structure Place where
  line : Nat
  column : Nat
deriving DecidableEq, Repr

namespace Place

/-- The place behind a character that stands at `p`. -/
def next (p : Place) (c : Char) : Place :=
  if c = '\n' then ⟨p.line + 1, 0⟩ else ⟨p.line, p.column + 1⟩

/-- The place behind a whole text. -/
def endOf (text : List Char) : Place := text.foldl next ⟨0, 0⟩

/-- The place of a byte offset. -/
def ofOffset (text : List Char) (offset : Nat) : Place := endOf (cutAt offset text).1

end Place

/-- The part of a text behind its last line break. -/
def lastLine (text : List Char) : List Char :=
  (text.reverse.takeWhile (· ≠ '\n')).reverse

/-- The whole line that a byte offset lies in, without its line break. -/
def lineAt (text : List Char) (offset : Nat) : List Char :=
  let (before, after) := cutAt offset text
  lastLine before ++ after.takeWhile (· ≠ '\n')

theorem cutAt?_append {n : Nat} {text before after : List Char}
    (h : cutAt? n text = some (before, after)) : before ++ after = text := by
  fun_induction cutAt? n text generalizing before with
  | case1 => simp_all
  | case2 => simp at h
  | case3 n c text hc ih =>
    obtain ⟨⟨b, a⟩, hcut, heq⟩ := Option.map_eq_some_iff.1 h
    cases heq
    simp [ih hcut]
  | case4 => simp at h

/-- Cutting loses nothing. -/
theorem cutAt_append (offset : Nat) (text : List Char) :
    (cutAt offset text).1 ++ (cutAt offset text).2 = text := by
  unfold cutAt
  cases h : cutAt? offset text with
  | none => simp
  | some p => exact cutAt?_append h

end SqlScript

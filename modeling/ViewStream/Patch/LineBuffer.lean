import ViewStream.Text.Pieces
import ViewStream.Text.Utf8

/-!
# Lines out of chunks

A stream arrives in chunks of bytes that may end anywhere, inside a character as well. The buffer
keeps the bytes after the last line break and hands out each line when its line break arrives. A
line is decoded as a whole, without one carriage return at its end.

The byte of a line break is never part of a longer character, so cutting comes before decoding.
-/

namespace ViewStream

/-- The bytes that wait for a line break. -/
structure LineBuffer where
  /-- What arrived after the last line break. -/
  pending : List UInt8 := []
  /-- How many lines have been handed out. -/
  emitted : Nat := 0
deriving DecidableEq, Repr, Inhabited

namespace LineBuffer

/-- The byte that ends a line. -/
def lineBreak : UInt8 := 0x0A

/-- The byte of a carriage return. -/
def carriageReturn : UInt8 := 0x0D

/-- The text of a line. -/
def decodeLine (bytes : List UInt8) : String :=
  String.ofList (Text.Utf8.decode (Text.dropFinal carriageReturn bytes))

/-- Take in a chunk: the lines it completes, and the buffer afterwards. -/
def push (b : LineBuffer) (chunk : List UInt8) : List String × LineBuffer :=
  let (done, rest) := Text.cut lineBreak (b.pending ++ chunk)
  (done.map decodeLine, ⟨rest, b.emitted + done.length⟩)

/-- The waiting bytes as a last line, if there are any. -/
def flush (b : LineBuffer) : Option String × LineBuffer :=
  match b.pending with
  | [] => (none, b)
  | bytes => (some (decodeLine bytes), ⟨[], b.emitted + 1⟩)

/-- **A chunk may be cut anywhere**: its parts, pushed in turn, give the same lines and leave the
same buffer. -/
theorem push_append (b : LineBuffer) (xs ys : List UInt8) :
    b.push (xs ++ ys)
      = ((b.push xs).1 ++ ((b.push xs).2.push ys).1, ((b.push xs).2.push ys).2) := by
  simp [push, ← List.append_assoc, Text.cut_append lineBreak (b.pending ++ xs) ys, Nat.add_assoc]

/-- The count of lines goes up by the lines handed out. -/
theorem push_emitted (b : LineBuffer) (chunk : List UInt8) :
    (b.push chunk).2.emitted = b.emitted + (b.push chunk).1.length := by
  simp [push]

end LineBuffer

end ViewStream

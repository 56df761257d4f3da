import ViewStream.Json.Basic
import ViewStream.Text.Pieces

/-!
# Paths into a document

A pointer is a list of segments. Its text writes a slash before each segment and escapes the two
characters that would be misread, `~` as `~0` and `/` as `~1`. The empty text is the whole
document and a lone slash is the member named by the empty string.

Reading never fails and is forgiving: the leading slash may be missing, and a `~` that begins no
escape stands for itself.

A segment names a member of an object or, written in decimal digits, an item of an array.
-/

namespace ViewStream

open Json (Value)

/-- A path into a document, from the root down. -/
structure Pointer where
  /-- The names and positions passed on the way, unescaped. -/
  segments : List String
deriving DecidableEq, Repr, Inhabited

namespace Pointer

/-- The pointer to the whole document. -/
def root : Pointer := ⟨[]⟩

/-- Whether the pointer is the whole document. -/
def isRoot (p : Pointer) : Bool := p.segments.isEmpty

/-- The pointer one segment further down. -/
def join (p : Pointer) (segment : String) : Pointer := ⟨p.segments ++ [segment]⟩

/-- The pointer to the parent and the last segment; the root has neither. -/
def splitLast (p : Pointer) : Option (Pointer × String) :=
  p.segments.getLast?.map fun last => (⟨p.segments.dropLast⟩, last)

/-! ## Text -/

/-- The escaped form of one character of a segment. -/
def escapeChar (c : Char) : List Char :=
  if c = '~' then ['~', '0'] else if c = '/' then ['~', '1'] else [c]

/-- The escaped form of a segment. -/
def escape (cs : List Char) : List Char := cs.flatMap escapeChar

/-- Undo the two escapes; any other `~` is kept. -/
def unescape : List Char → List Char
  | [] => []
  | '~' :: '0' :: cs => '~' :: unescape cs
  | '~' :: '1' :: cs => '/' :: unescape cs
  | c :: cs => c :: unescape cs

/-- The segments written in a text. -/
def segmentsOf : List Char → List (List Char)
  | [] => []
  | '/' :: cs => (Text.pieces '/' cs).map unescape
  | cs => (Text.pieces '/' cs).map unescape

/-- The pointer written in a text. -/
def parse (text : String) : Pointer :=
  ⟨(segmentsOf text.toList).map String.ofList⟩

/-- The text of a pointer, as characters. -/
def chars (p : Pointer) : List Char :=
  p.segments.flatMap fun s => '/' :: escape s.toList

/-- The text of a pointer. -/
def text (p : Pointer) : String := String.ofList p.chars

/-- **Escaping loses nothing.** -/
theorem unescape_escape (cs : List Char) : unescape (escape cs) = cs := by
  induction cs with
  | nil => rfl
  | cons c cs ih =>
    simp only [escape, List.flatMap_cons] at ih ⊢
    by_cases ht : c = '~'
    · simp [escapeChar, ht, unescape, ih]
    · by_cases hs : c = '/'
      · simp [escapeChar, hs, unescape, ih]
      · simp only [escapeChar, ht, hs, if_false, List.singleton_append]
        rw [unescape]
        · rw [ih]
        · simp [ht]
        · simp [ht]

/-- An escaped segment holds no slash, so a slash in a pointer's text begins a segment. -/
theorem slash_not_mem_escape (cs : List Char) : '/' ∉ escape cs := by
  simp only [escape, List.mem_flatMap, not_exists, not_and]
  intro c _
  unfold escapeChar
  split
  · decide
  · split
    · decide
    · rename_i hs
      simpa using Ne.symm hs

/-! ## Array positions -/

/-- The array position a segment names: decimal digits alone, below 2 ^ 64. -/
def index? (segment : String) : Option Nat :=
  let cs := segment.toList
  if cs ≠ [] ∧ cs.all Char.isDigit then
    let n := Nat.ofDigitChars 10 cs 0
    if n < Nat.pow 2 64 then some n else none
  else none

/-- Whether a segment names a place in an array: a position, or `-` for the end. -/
def isIndexLike (segment : String) : Bool :=
  segment == "-" || (index? segment).isSome

/-! ## Lookup -/

/-- The member or item of a container that a segment names. -/
def child? (v : Value) (segment : String) : Option Value :=
  match v with
  | .obj ms => ms.lookup segment
  | .arr xs => (index? segment).bind fun i => xs[i]?
  | _ => none

/-- Follow segments down from a value. -/
def follow? : List String → Value → Option Value
  | [], v => some v
  | s :: rest, v => (child? v s).bind (follow? rest)

/-- The value that the pointer leads to. -/
def get? (p : Pointer) (v : Value) : Option Value := follow? p.segments v

/-- The value that the pointer written in a text leads to. -/
def read? (text : String) (v : Value) : Option Value := (parse text).get? v

/-- **Following a longer path is following its parts in turn.** -/
theorem follow?_append (ss ts : List String) (v : Value) :
    follow? (ss ++ ts) v = (follow? ss v).bind (follow? ts) := by
  induction ss generalizing v with
  | nil => rfl
  | cons s ss ih =>
    simp only [List.cons_append, follow?]
    cases child? v s with
    | none => rfl
    | some w => exact ih w

end Pointer

end ViewStream

/-!
# Decoding UTF-8, forgivingly

The decoder reads one byte at a time and is always between two characters or inside a sequence.
A byte that cannot go on ends the sequence: **one U+FFFD stands for what was read of it, and the
byte is read again as a first byte**. So each longest valid beginning of a broken sequence becomes
one U+FFFD, as does each byte that begins none.

The second byte of a sequence is the one whose range varies: it is what keeps out overlong forms,
surrogates and code points above U+10FFFF.
-/

namespace ViewStream.Text.Utf8

/-- The character that stands for bytes which are not UTF-8. -/
def replacement : Char := '\uFFFD'

/-- Where a decoder stands. -/
inductive State where
  /-- Between two characters. -/
  | start
  /-- Inside a sequence: this many bytes are still owed after the next one, the next one lies
  between `low` and `high`, and the bits read so far make the number `bits`. -/
  | inside (owed : Nat) (low high : UInt8) (bits : Nat)
deriving DecidableEq, Repr

/-- Read a byte that begins a sequence. -/
def first (b : UInt8) : List Char × State :=
  if b < 0x80 then ([Char.ofNat b.toNat], .start)
  else if b < 0xC2 then ([replacement], .start)
  else if b < 0xE0 then ([], .inside 0 0x80 0xBF (b.toNat - 0xC0))
  else if b < 0xF0 then
    ([], .inside 1 (if b = 0xE0 then 0xA0 else 0x80) (if b = 0xED then 0x9F else 0xBF)
      (b.toNat - 0xE0))
  else if b < 0xF5 then
    ([], .inside 2 (if b = 0xF0 then 0x90 else 0x80) (if b = 0xF4 then 0x8F else 0xBF)
      (b.toNat - 0xF0))
  else ([replacement], .start)

/-- Read one byte: the characters it completes, and where it leaves the decoder. -/
def step : State → UInt8 → List Char × State
  | .start, b => first b
  | .inside owed low high bits, b =>
    if low ≤ b ∧ b ≤ high then
      let bits := bits * 64 + (b.toNat - 0x80)
      match owed with
      | 0 => ([Char.ofNat bits], .start)
      | owed + 1 => ([], .inside owed 0x80 0xBF bits)
    else (replacement :: (first b).1, (first b).2)

/-- Decode from a given state to the end of the bytes. -/
def decodeFrom : State → List UInt8 → List Char
  | .start, [] => []
  | .inside .., [] => [replacement]
  | s, b :: bs => (step s b).1 ++ decodeFrom (step s b).2 bs

/-- The text of a byte sequence, valid or not. -/
def decode (bytes : List UInt8) : List Char :=
  decodeFrom .start bytes

/-- The bytes of a text. -/
def encode (cs : List Char) : List UInt8 :=
  cs.flatMap String.utf8EncodeChar

/-- The bytes of a string. -/
def bytesOf (text : String) : List UInt8 := encode text.toList

/-- The text of a byte sequence that is valid. -/
def decode? (bytes : List UInt8) : Option (List Char) :=
  let cs := decode bytes
  if encode cs = bytes then some cs else none

end ViewStream.Text.Utf8

/-!
# Scanners

A scanner reads something off the front of the characters and says what remains. A document is
read by scanners only, so nothing that one of them has passed over is looked at again.
-/

namespace ViewStream.Toml

/-- What reads something off the front of the characters and returns what remains. -/
abbrev Scanner (α : Type) := List Char → Option (α × List Char)

/-- Whether a character may stand in a comment or between quotes on one line. -/
def isPlain (c : Char) : Bool := c = '\t' || (0x20 ≤ c.toNat && c.toNat ≠ 0x7F)

/-- Whether a character is a blank within a line. -/
def isLineBlank (c : Char) : Bool := c = ' ' || c = '\t'

/-- A character that must be there. -/
def exactly (c : Char) : List Char → Option (List Char)
  | d :: cs => if c = d then some cs else none
  | [] => none

end ViewStream.Toml

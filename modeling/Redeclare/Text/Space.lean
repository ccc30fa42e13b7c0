/-!
# White space

The characters that separate words in Unicode: those of the bidirectional classes for white space and separators, and
the space separators.
-/

namespace Redeclare

/-- The ranges of the numbers of white space, both ends included. -/
def spaceRanges : List (Nat × Nat) :=
  [(0x9, 0xD), (0x1C, 0x20), (0x85, 0x85), (0xA0, 0xA0), (0x1680, 0x1680), (0x2000, 0x200A), (0x2028, 0x2029),
   (0x202F, 0x202F), (0x205F, 0x205F), (0x3000, 0x3000)]

/-- A character that separates words. -/
def isSpace (c : Char) : Bool := spaceRanges.any fun (first, last) => first ≤ c.toNat && c.toNat ≤ last

/-- White space within a line. -/
def isInlineSpace (c : Char) : Bool := isSpace c && c != '\n' && c != '\r'

end Redeclare

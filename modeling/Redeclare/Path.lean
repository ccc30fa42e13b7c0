import Redeclare.Text.Basic

/-!
# Paths

A path is kept in the form in which it is shown: without empty and `.` components, with `..` components where they were,
and with two leading slashes told apart from one.
-/

namespace Redeclare

/-- Where a path starts: the working directory, the root, or the root written with two slashes. -/
inductive Anchor where
  | relative
  | root
  | doubleRoot
deriving DecidableEq, Repr

/-- A path: where it starts and the names to go through. -/
structure Path where
  anchor : Anchor
  names : List Text
deriving DecidableEq

namespace Path

/-- The character between names. -/
def slash : Point := .char '/'

/-- The name of the directory itself. -/
def dot : Text := [.char '.']

/-- The name of the directory above. -/
def dotDot : Text := [.char '.', .char '.']

/-- The pieces of a text between slashes, empty ones too. -/
def pieces : Text → List Text
  | [] => [[]]
  | p :: rest =>
    if p = slash then [] :: pieces rest
    else
      match pieces rest with
      | [] => [[p]]
      | piece :: more => (p :: piece) :: more

/-- Where a path text starts. Two slashes at its front are kept, more count as one. -/
def anchorOf (t : Text) : Anchor :=
  match (t.takeWhile (· == slash)).length with
  | 0 => .relative
  | 2 => .doubleRoot
  | _ => .root

/-- A piece that leads somewhere. -/
def isName (piece : Text) : Bool := piece != [] && piece != dot

/-- The path that a text denotes. -/
def parse (t : Text) : Path := ⟨anchorOf t, (pieces t).filter isName⟩

/-- The slashes that a path begins with. -/
def anchorText : Anchor → Text
  | .relative => []
  | .root => [slash]
  | .doubleRoot => [slash, slash]

/-- A path as text; the empty one is shown as `.`. -/
def toText (p : Path) : Text :=
  match anchorText p.anchor ++ Text.join [slash] p.names with
  | [] => dot
  | t => t

/-- A path from the directory `p`; one that starts at the root leads away from it. -/
def append (p q : Path) : Path :=
  match q.anchor with
  | .relative => ⟨p.anchor, p.names ++ q.names⟩
  | _ => q

instance : Append Path := ⟨append⟩

/-- A name holds the character with number zero, which no file name may. -/
def hasNul (p : Path) : Bool := p.names.any (·.contains (.char '\x00'))

end Path

end Redeclare

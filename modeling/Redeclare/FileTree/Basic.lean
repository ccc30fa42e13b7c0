import Redeclare.Path
import Redeclare.Text.Utf8

/-!
# File trees

A tree of files, links and directories, each under its location: the names that lead to it from the root. The tree is
flat, so that a change at one location visibly leaves all others alone.
-/

namespace Redeclare

/-- What stands at a location. -/
inductive Entry where
  | file (mode : Nat) (content : Utf8.Bytes)
  | link (target : Text)
  | dir
deriving DecidableEq

/-- The names that lead from the root to a place in the tree, without detours. -/
abbrev Location := List Text

/-- A tree, and the directory in which relative paths start. -/
structure FileTree where
  entries : List (Location × Entry)
  here : Location
deriving DecidableEq

/-- What the system reports when it refuses. -/
inductive Errno where
  | notFound
  | busy
  | occupied
  | notADirectory
  | isADirectory
  | nameTooLong
  | tooManyLinks
deriving DecidableEq, Repr

namespace Entry

/-- The mode bits of an entry; those of links and directories play no part. -/
def mode : Entry → Nat
  | .file mode _ => mode
  | _ => 0o755

end Entry

namespace FileTree

/-! ## Looking up and changing -/

/-- The first entry under a location. -/
def lookup (loc : Location) : List (Location × Entry) → Option Entry
  | [] => none
  | (l, e) :: rest => if l = loc then some e else lookup loc rest

/-- The entries with the one under `loc` replaced, or with a new last one. -/
def assign (loc : Location) (e : Entry) : List (Location × Entry) → List (Location × Entry)
  | [] => [(loc, e)]
  | (l, old) :: rest => if l = loc then (l, e) :: rest else (l, old) :: assign loc e rest

/-- What stands at a location. The root is a directory. -/
def entry? (tree : FileTree) (loc : Location) : Option Entry :=
  if loc = [] then some .dir else lookup loc tree.entries

/-- The tree with `e` at a location. -/
def set (tree : FileTree) (loc : Location) (e : Entry) : FileTree :=
  { tree with entries := assign loc e tree.entries }

/-- The tree with nothing at a location. -/
def remove (tree : FileTree) (loc : Location) : FileTree :=
  { tree with entries := tree.entries.filter (·.1 ≠ loc) }

/-! ## Limits of the system -/

/-- The most bytes of a name. -/
def maxName : Nat := 255

/-- A path text must have fewer bytes than this. -/
def maxPath : Nat := 4096

/-- The most links that are followed on the way to one entry. -/
def maxLinks : Nat := 40

end FileTree

end Redeclare

import Redeclare.FileTree.Walk

/-!
# Canonical locations

The location that a path stands for when every link in it is followed, also where the path leads nowhere: names that are
not there are kept, `..` takes the name before it away. A link that leads back to itself cannot be followed; from there
on the names are kept as they are.
-/

namespace Redeclare.FileTree

/-- What following the links of a path comes to. -/
inductive Canonical where
  | settled (loc : Location)
  | circular (names : List Text)
deriving DecidableEq

/-- The names with `.` dropped and each `..` taking away the name before it. -/
def collapse (names : List Text) : Location :=
  names.foldl
    (fun loc name =>
      if name = [] ∨ name = Path.dot then loc else if name = Path.dotDot then loc.dropLast else loc ++ [name])
    []

/-- Names after names; an empty name with others behind it stands for a slash at the front and starts at the root. -/
def joinNames (names : List Text) : List Text → List Text
  | [] :: name :: rest => [] :: name :: rest
  | rest => names ++ rest

/-- Follows the links in names from `loc`, with `follow` for the targets of links. The links in `active` are those whose
targets are being followed. They are told by where they are; where the same link is spelled in two ways, from the root
and from the working directory, going by the spelling would lead around a circle once more, and to other names. -/
def resolveWith (tree : FileTree) (follow : List Location → Location → List Text → Canonical)
    (active : List Location) (loc : Location) : List Text → Canonical
  | [] => .settled loc
  | name :: rest =>
    if name = [] ∨ name = Path.dot then resolveWith tree follow active loc rest
    else if name = Path.dotDot then resolveWith tree follow active loc.dropLast rest
    else
      match tree.entry? (loc ++ [name]) with
      | some (.link target) =>
        if loc ++ [name] ∈ active then .circular (joinNames (loc ++ [name]) rest)
        else
          match follow ((loc ++ [name]) :: active) (linkStart loc target) (Path.pieces target) with
          | .settled next => resolveWith tree follow active next rest
          | .circular names => .circular (joinNames names rest)
      | _ => resolveWith tree follow active (loc ++ [name]) rest

/-- Follows the links in names, through at most `depth` links inside the targets of links. -/
def resolve (tree : FileTree) : Nat → List Location → Location → List Text → Canonical
  | 0 => tree.resolveWith fun _ _ names => .circular names
  | depth + 1 => tree.resolveWith (resolve tree depth)

/-- The canonical location of a path. Links inside targets are never nested deeper than there are entries. -/
def canonical (tree : FileTree) (p : Path) : Location :=
  match tree.resolve tree.entries.length [] (tree.startOf p) p.names with
  | .settled loc => loc
  | .circular names => collapse names

end Redeclare.FileTree

import Redeclare.FileTree.Basic

/-!
# Following a path

How the system finds what a path leads to: name by name from a directory, through links, and upwards from where a link
has led. Every name is looked up in a directory that is there; the number of links is limited.
-/

namespace Redeclare.FileTree

/-- How far one goes without following a link. -/
inductive Leg where
  | arrived (loc : Location)
  | link (start : Location) (names : List Text)
  | failed (e : Errno)
deriving DecidableEq

/-- Where the target of a link that stands in the directory `dir` starts. -/
def linkStart (dir : Location) (target : Text) : Location :=
  if target.head? = some Path.slash then [] else dir

/-- The way from `loc` through names up to the first link, which is not followed yet. -/
def advance (tree : FileTree) (loc : Location) : List Text → Leg
  | [] => .arrived loc
  | name :: rest =>
    match tree.entry? loc with
    | none => .failed .notFound
    | some .dir =>
      if name = [] ∨ name = Path.dot then advance tree loc rest
      else if name = Path.dotDot then advance tree loc.dropLast rest
      else if maxName < Utf8.byteLength name then .failed .nameTooLong
      else
        match tree.entry? (loc ++ [name]) with
        | none => .failed .notFound
        | some (.link target) => .link (linkStart loc target) (Path.pieces target ++ rest)
        | some _ => advance tree (loc ++ [name]) rest
    | some _ => .failed .notADirectory

/-- Where names lead from `loc`, through at most `links` links. -/
def walk (tree : FileTree) : Nat → Location → List Text → Except Errno Location
  | 0, loc, names =>
    match tree.advance loc names with
    | .arrived loc => .ok loc
    | .link _ _ => .error .tooManyLinks
    | .failed e => .error e
  | links + 1, loc, names =>
    match tree.advance loc names with
    | .arrived loc => .ok loc
    | .link start names => walk tree links start names
    | .failed e => .error e

/-- The directory in which a path starts. -/
def startOf (tree : FileTree) (p : Path) : Location :=
  match p.anchor with
  | .relative => tree.here
  | _ => []

/-- Where a path leads. -/
def find (tree : FileTree) (p : Path) : Except Errno Location :=
  if maxPath ≤ Utf8.byteLength p.toText then .error .nameTooLong else tree.walk maxLinks (tree.startOf p) p.names

/-- The content of the file that a path leads to. -/
def read (tree : FileTree) (p : Path) : Except Errno Utf8.Bytes :=
  match tree.find p with
  | .error e => .error e
  | .ok loc =>
    match tree.entry? loc with
    | some (.file _ content) => .ok content
    | some _ => .error .isADirectory
    | none => .error .notFound

end Redeclare.FileTree

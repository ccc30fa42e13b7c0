import Redeclare.Failure
import Redeclare.FileTree.Canonical

/-!
# Replacing a file in one step

A text is first written to a new file beside the one it is for, takes over that file's mode, and is then moved over it.
Up to the move the old file is untouched; when a step fails, the new file is removed. The trees between the steps are
kept, so that it can be said what another process may see.
-/

namespace Redeclare.FileTree

/-- A call that is made to fail, as on a full disk: opening the new file, taking over the mode, moving the file, or
moving it when it is already gone. -/
inductive Fault where
  | opening
  | takeMode
  | move
  | moveGone
deriving DecidableEq, Repr

/-- One step: a tree, or why it failed. -/
abbrev Step := FileTree → Except Failure FileTree

/-- How a sequence of steps went: the trees it passed through, the last of them, and the failure if there was one. -/
structure Attempt where
  passed : List FileTree
  tree : FileTree
  failure : Option Failure

/-! ## The name of the new file -/

/-- The characters that make a name new. -/
def nameLetters : List Char :=
  ['a', 'b', 'c', 'd', 'e', 'f', 'g', 'h', 'i', 'j', 'k', 'l', 'm', 'n', 'o', 'p', 'q', 'r', 's', 't', 'u', 'v', 'w',
   'x', 'y', 'z', '0', '1', '2', '3', '4', '5', '6', '7', '8', '9', '_']

/-- The number `n` in `width` letters. -/
def letters (n : Nat) : Nat → Text
  | 0 => []
  | width + 1 => .char (nameLetters.getD (n % nameLetters.length) 'a') :: letters (n / nameLetters.length) width

/-- The candidate with number `n` for the name of a new file beside `name`. -/
def besideName (name : Text) (n : Nat) : Text :=
  .char '.' :: name ++ .char '.' :: letters n 8 ++ Text.ofChars ['.', 't', 'm', 'p']

/-- The number of different candidates. -/
def candidates : Nat := Nat.pow nameLetters.length 8

/-- The number of the first of `tries` candidates from `n` on that is not taken in a directory. -/
def freeNumber? (tree : FileTree) (dir : Location) (name : Text) : Nat → Nat → Option Nat
  | 0, _ => none
  | tries + 1, n =>
    if (tree.entry? (dir ++ [besideName name n])).isNone then some n else freeNumber? tree dir name tries (n + 1)

/-! ## The steps -/

/-- The last name of a location; that of the root is empty. -/
def lastName (loc : Location) : Text := loc.getLastD []

/-- The directory that a location is in, as the system finds it. -/
def directoryOf (tree : FileTree) (loc : Location) : Except Errno Location :=
  match tree.walk maxLinks [] loc.dropLast with
  | .error e => .error e
  | .ok dir => if tree.entry? dir = some .dir then .ok dir else .error .notADirectory

/-- The path by which the new file beside a target is called; `name` is its own name. -/
def besidePath (target : Location) (name : Text) : Path := ⟨.root, target.dropLast ++ [name]⟩

/-- The path of the candidate with a number for the new file beside a target. -/
def candidatePath (target : Location) (n : Nat) : Path := besidePath target (besideName (lastName target) n)

/-- Creates an empty file beside the target, for the owner only. The candidate with the number `seed` is tried first. -/
def createBeside (seed : Nat) (tree : FileTree) (target : Location) : Except Failure (FileTree × Location) :=
  let refused : Errno → Except Failure (FileTree × Location) := fun e =>
    .error (.unopened e (candidatePath target seed))
  if maxPath ≤ Utf8.byteLength (candidatePath target seed).toText then refused .nameTooLong
  else
    match tree.directoryOf target with
    | .error e => refused e
    | .ok dir =>
      if maxName < Utf8.byteLength (besideName (lastName target) seed) then refused .nameTooLong
      else
        match tree.freeNumber? dir (lastName target) candidates seed with
        | some n =>
          let beside := dir ++ [besideName (lastName target) n]
          .ok (tree.set beside (.file 0o600 []), beside)
        | none => .error .noFreeName

/-- Opens the new file and fills it; `fault` is the call that is made to fail. -/
def fill (fault : Option Fault) (beside : Location) (text : Text) : Step := fun tree =>
  if fault = some .opening then .error .diskFull
  else
    match Utf8.encode text with
    | .ok bytes => .ok (tree.set beside (.file 0o600 bytes))
    | .error e => .error (.loneSurrogates e)

/-- Gives a file another mode. -/
def setMode (tree : FileTree) (loc : Location) (mode : Nat) : FileTree :=
  match tree.entry? loc with
  | some (.file _ content) => tree.set loc (.file mode content)
  | _ => tree

/-- The mode of what the target leads to, if it leads to something. -/
def modeOf? (tree : FileTree) (target : Location) : Except Failure (Option Nat) :=
  match tree.walk maxLinks [] target with
  | .ok loc => .ok ((tree.entry? loc).map Entry.mode)
  | .error .nameTooLong => .error (.system .nameTooLong ⟨.root, target⟩)
  | .error _ => .ok none

/-- Gives the new file the mode of the target, if there is one; `give` is the call that does so. -/
def takeMode (give : FileTree → Nat → Except Failure FileTree) (target : Location) : Step := fun tree =>
  match tree.modeOf? target with
  | .error e => .error e
  | .ok none => .ok tree
  | .ok (some mode) => give tree mode

/-- Moves the new file over the target. A directory is not replaced by a file. -/
def move (beside target : Location) : Step := fun tree =>
  let refused : Errno → Except Failure FileTree := fun e =>
    .error (.unmoved e (besidePath target (lastName beside)) ⟨.root, target⟩)
  if target = [] then refused .busy
  else
    match tree.directoryOf target with
    | .error e => refused e
    | .ok dir =>
      match tree.entry? (dir ++ [lastName target]), tree.entry? beside with
      | some .dir, _ => refused .isADirectory
      | _, none => refused .notFound
      | _, some e => .ok ((tree.remove beside).set (dir ++ [lastName target]) e)

/-- The steps after the new file was created, with the call that is made to fail. -/
def stepsAfter (fault : Option Fault) (beside target : Location) (text : Text) : List Step :=
  let give : FileTree → Nat → Except Failure FileTree := fun tree mode =>
    if fault = some .takeMode then .error .diskFull else .ok (tree.setMode beside mode)
  [fill fault beside text, takeMode give target] ++
    match fault with
    | some .move => [fun _ => .error .diskFull]
    | some .moveGone => [fun tree => .ok (tree.remove beside), fun _ => .error .diskFull]
    | _ => [move beside target]

/-- Takes steps one after another; when one fails, the file at `beside` is removed and no further step is taken. -/
def attempt (beside : Location) : List Step → FileTree → Attempt
  | [], tree => ⟨[], tree, none⟩
  | step :: rest, tree =>
    match step tree with
    | .ok next =>
      let later := attempt beside rest next
      { later with passed := next :: later.passed }
    | .error e => ⟨[tree.remove beside], tree.remove beside, some e⟩

/-- Replaces the file at a location by a text; `seed` is the number of the candidate that is tried first for the name of
the new file. -/
def replaceAt (fault : Option Fault) (seed : Nat) (tree : FileTree) (target : Location) (text : Text) : Attempt :=
  match createBeside seed tree target with
  | .error e => ⟨[], tree, some e⟩
  | .ok (created, beside) =>
    let later := attempt beside (stepsAfter fault beside target text) created
    { later with passed := created :: later.passed }

/-! ## Through a path -/

/-- The location at which a text for a path is written. A path with a link that leads back to itself has none. -/
def destination (tree : FileTree) (p : Path) : Except Failure Location :=
  if p.hasNul then .error .nul
  else
    let loc := tree.canonical p
    match tree.walk maxLinks [] loc with
    | .error .tooManyLinks => .error (.linkLoop ⟨.root, loc⟩)
    | _ => .ok loc

end Redeclare.FileTree

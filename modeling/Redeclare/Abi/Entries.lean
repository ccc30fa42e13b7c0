import Redeclare.Json.Basic

/-!
# The entries of an artifact

An artifact is an object whose member `abi` is an array of objects, the entries. Of a document of another shape the
first thing that is wrong is reported.
-/

namespace Redeclare.Abi

/-- An entry: the members of one object of the array. -/
abbrev Entry := Members

/-- Why a document is no artifact. -/
inductive ShapeError where
  | notAnObject
  | noAbi
  | notAList
  | badEntry (index : Nat)
deriving DecidableEq, Repr

/-- The name of the member that holds the entries. -/
def abiName : Text := Text.ofString "abi"

/-- The objects of an array, or the index of the first item that is none; `index` is that of the first item. -/
def objects (index : Nat) : List Json → Except ShapeError (List Entry)
  | [] => .ok []
  | .obj members :: rest =>
    match objects (index + 1) rest with
    | .ok entries => .ok (members :: entries)
    | .error e => .error e
  | _ :: _ => .error (.badEntry index)

/-- The entries of a document. -/
def entries : Json → Except ShapeError (List Entry)
  | .obj members =>
    match Members.get? abiName members with
    | none => .error .noAbi
    | some (.arr items) => objects 0 items
    | some _ => .error .notAList
  | _ => .error .notAnObject

/-- The document with other entries. -/
def withEntries (document : Json) (entries : List Entry) : Json :=
  match document with
  | .obj members => .obj (Members.put abiName (.arr (entries.map .obj)) members)
  | other => other

namespace ShapeError

/-- The wording of a cause, for the document of the artifact `name`. -/
def message (name : Text) : ShapeError → Text
  | .notAnObject => Text.ofString "Artifact is not a JSON object: " ++ name
  | .noAbi => Text.ofString "No 'abi' key in " ++ name
  | .notAList => Text.ofString "'abi' in " ++ name ++ Text.ofString " is not a list"
  | .badEntry index =>
    Text.ofString "abi[" ++ Text.ofNat index ++ Text.ofString "] in " ++ name ++ Text.ofString " is not an object"

end ShapeError

end Redeclare.Abi

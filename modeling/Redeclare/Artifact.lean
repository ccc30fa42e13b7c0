import Redeclare.Event
import Redeclare.Host
import Redeclare.Json.Printer
import Redeclare.Json.Reader

/-!
# Artifacts

An artifact is a file that holds a document. It is read through whatever its path leads to, and written as a whole, over
the file that its path stands for.
-/

namespace Redeclare.Artifact

/-- The document in a file's content. -/
def decode (content : Utf8.Bytes) : Except Failure Json :=
  match Utf8.decode content with
  | .error e => .error (.notUtf8 e)
  | .ok cs =>
    match Json.read (Lines.unify cs) with
    | .error e => .error (.noDocument e)
    | .ok document => .ok document

/-- The document that a path leads to. -/
def load (tree : FileTree) (path : Path) : Except Failure Json :=
  if path.hasNul then .error .nul
  else
    match tree.read path with
    | .error e => .error (.system e path)
    | .ok content => decode content

/-- The entries of a document; the artifact is named `name` in messages. -/
def entries (document : Json) (name : Text) : Except Failure (List Abi.Entry) :=
  match Abi.entries document with
  | .error e => .error (.noArtifact e name)
  | .ok entries => .ok entries

/-- Writes a document over the file that a path stands for. -/
def store (host : Host) (tree : FileTree) (path : Path) (document : Json) :
    FileTree × Except Failure Event :=
  match tree.destination path with
  | .error e => (tree, .error e)
  | .ok loc =>
    if document.hasLongWhole then (tree, .error .longWhole)
    else
      let text := document.render
      let attempt := FileTree.replaceAt host.fault (host.seeds 0) tree loc text
      match attempt.failure with
      | some e => (attempt.tree, .error e)
      | none => (attempt.tree, .ok (.wrote ⟨.root, loc⟩ text.length))

end Redeclare.Artifact

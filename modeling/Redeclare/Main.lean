import Redeclare.Program

/-!
# The command

Runs the program on the files of this machine: looks at what the targets lead to, lets the program decide, and carries
out what it changed. A changed file gets the usual mode for new files, as the modes of files cannot be looked up here.
-/

namespace Redeclare.Command

/-! ## Texts -/

/-- A text for a terminal; lone surrogates are shown by their numbers. -/
def terminal (t : Text) : String :=
  let shown : Text := t.flatMap fun p =>
    match p with
    | .char _ => [p]
    | .lone _ => Quoted.escape p.code
  String.ofList (shown.chars?.getD [])

/-- The path text of a location. -/
def pathText (loc : Location) : String := terminal (Path.toText ⟨.root, loc⟩)

/-! ## Looking -/

/-- What the system finds under a path, if it finds something. -/
def look (path : String) : IO (Option Entry) := do
  try
    let content ← IO.FS.readBinFile path
    return some (.file 0o644 content.toList)
  catch
    | .noFileOrDirectory .. => return none
    | .inappropriateType .. => return some .dir
    | e => throw e

/-- The locations on the way to a location, itself included. -/
def stations (loc : Location) : List Location := (List.range loc.length).map fun n => loc.take (n + 1)

/-- The tree with what is found on the way to a location. -/
def survey (tree : FileTree) (loc : Location) : IO FileTree :=
  (stations loc).foldlM
    (fun tree station => do
      match ← look (pathText station) with
      | some e => return tree.set station e
      | none => return tree)
    tree

/-- The tree with what is found under a path. A path that leads elsewhere than its names say becomes a link. -/
def surveyPath (tree : FileTree) (p : Path) : IO FileTree := do
  let loc := FileTree.collapse (tree.startOf p ++ p.names)
  let tree ← survey tree loc
  try
    let real := Path.parse (Text.ofString (← IO.FS.realPath (terminal p.toText)).toString)
    if real.names = loc then return tree
    let tree ← survey tree real.names
    return tree.set loc (.link real.toText)
  catch _ => return tree

/-! ## Carrying out -/

/-- Writes a file in one step, through a new file beside it. -/
def carryOut (tree : FileTree) (loc : Location) (content : Utf8.Bytes) : IO Unit := do
  let name := FileTree.lastName loc
  let number := (tree.freeNumber? loc.dropLast name FileTree.candidates 0).getD 0
  let beside := pathText (loc.dropLast ++ [FileTree.besideName name number])
  IO.FS.writeBinFile beside ⟨content.toArray⟩
  IO.FS.rename beside (pathText loc)

/-- Writes the files that differ between two trees. -/
def carryOutAll (before after : FileTree) : IO Unit :=
  after.entries.forM fun (loc, e) =>
    match e with
    | .file _ content => if before.entry? loc = some e then pure () else carryOut after loc content
    | _ => pure ()

/-! ## Settings -/

/-- The text of the file of variables in the working directory, if there is one. -/
def variableFile : IO (Option (List Char)) := do
  match ← look ".env" with
  | some (.file _ content) =>
    match Utf8.decode content with
    | .ok cs => return some cs
    | .error e => throw (IO.userError (terminal (Failure.notUtf8 e).summary))
  | _ => return none

/-- The variables of this process that settings and the file of variables can name. -/
def environment (file : Option (List Char)) : IO Environment := do
  let bindings := EnvFile.bindings (file.getD [])
  let named := bindings.flatMap fun b => b.name :: EnvFile.references (b.value.getD [])
  let names := [Settings.outVariable, Settings.levelVariable, Environment.offVariable] ++ named.map Text.ofChars
  names.filterMapM fun name => do
    return (← IO.getEnv (terminal name)).map fun value => (name, Text.ofString value)

/-! ## Running -/

/-- Tells of a failure and gives the status of a run that has none. -/
def giveUp (f : Failure) : IO UInt32 := do
  IO.eprintln (terminal f.summary)
  return 1

/-- Runs the program. -/
def run : IO UInt32 := do
  let file ← variableFile
  match Settings.load (← environment file) file with
  | .error f => giveUp f
  | .ok settings =>
    let here := (Path.parse (Text.ofString (← IO.currentDir).toString)).names
    let tree ← survey ⟨[], here⟩ here
    let targets := (settings.targets Settings.manifest).toOption.getD []
    let before ← targets.foldlM (fun tree t => surveyPath tree t.path) tree
    let ending := Program.run settings Settings.manifest Source.mainName Host.plain before
    carryOutAll before ending.tree
    ending.lines.forM fun line => IO.eprintln (terminal line)
    match ending.status with
    | .ok status => return UInt32.ofNat status
    | .error f => giveUp f

end Redeclare.Command

/-- Declares the functions of the manifest as view. -/
def main : IO UInt32 := Redeclare.Command.run

import Redeclare.Declaration

/-!
# Batches

Targets are taken one after another, each in the tree that the one before it left. A target that fails is recorded and
does not keep the others from being tried.
-/

namespace Redeclare

/-- A function to be declared as view, and the artifact that it is in. -/
structure Target where
  path : Path
  function : Text
deriving DecidableEq

/-- The outcomes of a batch, in the order of its targets. -/
structure Report where
  results : List Outcome
deriving DecidableEq

/-! ## Targets -/

namespace Target

/-- A target from the members of an object. -/
def ofMembers (members : Members) : Except Failure Target :=
  match (Checked.required Outcome.pathName Checked.path members).and
      (Checked.required Outcome.functionName Checked.someText members) with
  | .ok (path, function) => .ok ⟨path, function⟩
  | .error errors => .error (.invalid ⟨.target, errors⟩)

/-- A target from a path and a value that should be the name of a function. -/
def make (path : Path) (function : Json) : Except Failure Target :=
  match Checked.within Outcome.functionName (Checked.someText function) with
  | .ok function => .ok ⟨path, function⟩
  | .error errors => .error (.invalid ⟨.target, errors⟩)

/-- The mutability that batches declare. -/
def mutability : Text := Text.ofString "view"

/-- What a target asks for. -/
def request (t : Target) : Request := ⟨t.path, .str t.function, .str mutability⟩

end Target

/-! ## Reports -/

namespace Report

/-- The outcomes of targets that failed. -/
def failed (r : Report) : List Outcome := r.results.filter (·.status = .failed)

/-- The outcomes of targets whose function was not there. -/
def missing (r : Report) : List Outcome := r.results.filter (·.status = .notFound)

/-- No target failed. -/
def isOk (r : Report) : Bool := r.failed.isEmpty

/-- The number of targets that neither failed nor were missing. -/
def patchedCount (r : Report) : Nat := r.results.length - r.failed.length - r.missing.length

/-- The outcomes in an array of objects; `index` is that of the first item. -/
def outcomes (index : Nat) : List Json → Checked (List Outcome)
  | [] => .ok []
  | item :: rest =>
    Checked.as (fun (o, os) => o :: os) <|
      (Checked.within (Text.ofNat index)
        (match item with
          | .obj members => Outcome.ofMembers members
          | _ => Checked.refuse .notARecord)).and
      (outcomes (index + 1) rest)

/-- A report from the value of its results. -/
def ofJson (results : Json) : Except Failure Report :=
  match Checked.within (Text.ofString "results")
      (match results with
        | .arr items => outcomes 0 items
        | _ => Checked.refuse .notAList) with
  | .ok os => .ok ⟨os⟩
  | .error errors => .error (.invalid ⟨.report, errors⟩)

end Report

/-! ## Running -/

namespace Batch

/-- How a batch went: the tree after it, what was told of it, and its report. -/
structure Result where
  tree : FileTree
  events : List Event
  report : Report

/-- Tries one target; a failure becomes its outcome. -/
def tryTarget (host : Host) (tree : FileTree) (t : Target) : FileTree × List Event × Outcome :=
  let run := t.request.run host tree
  match run.result with
  | .ok outcome => (run.tree, run.events, outcome)
  | .error f => (run.tree, run.events ++ [.targetFailed t.path t.function], Outcome.ofFailure t.path t.function f)

/-- Tries all targets in order. For each of them another number is drawn. -/
def run (host : Host) (tree : FileTree) : List Target → Result
  | [] => ⟨tree, [], ⟨[]⟩⟩
  | t :: rest =>
    let (tree, events, outcome) := tryTarget host tree t
    let later := run (host.after 1) tree rest
    ⟨later.tree, events ++ later.events, ⟨outcome :: later.report.results⟩⟩

end Batch

end Redeclare

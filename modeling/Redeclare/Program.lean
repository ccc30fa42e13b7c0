import Redeclare.Settings

/-!
# The program

A run of the program: the level is checked, the manifest is made into targets, and all targets are tried. What was told
is heard from the level on, and the last line sums up. The exit status is zero if no target failed.
-/

namespace Redeclare.Program

/-- How a run went: the tree after it, the lines that were heard, and the exit status or why there is none. -/
structure Ending where
  tree : FileTree
  lines : List Text
  status : Except Failure Nat

/-- The lines that are heard from a threshold on. -/
def heard (threshold : Nat) (batchName : Text) (events : List Event) : List Text :=
  (events.filter (threshold ≤ ·.level.rank)).map (·.line batchName)

/-- The event that sums up a report. -/
def summary (r : Report) : Event := .finished r.patchedCount r.missing.length r.failed.length

/-- Runs the program. Nothing is touched when the level is unknown or an entry of the manifest makes no target. -/
def run (settings : Settings) (manifest : Manifest) (batchName : Text) (host : Host) (tree : FileTree) : Ending :=
  match Level.threshold? settings.level with
  | none => ⟨tree, [], .error (.unknownLevel settings.level)⟩
  | some threshold =>
    match settings.targets manifest with
    | .error e => ⟨tree, [], .error e⟩
    | .ok targets =>
      let result := Batch.run host tree targets
      ⟨result.tree, heard threshold batchName (result.events ++ [summary result.report]),
        .ok (if result.report.isOk then 0 else 1)⟩

end Redeclare.Program

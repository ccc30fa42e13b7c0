import Redeclare.Failure

/-!
# Outcomes

What became of one target: whether its function was declared anew, had been so before, was not there, or failed.
-/

namespace Redeclare

/-- What became of a target. -/
inductive Status where
  | patched
  | unchanged
  | notFound
  | failed
deriving DecidableEq, Repr

/-- The record of what became of a target. -/
structure Outcome where
  path : Path
  function : Text
  status : Status
  previous : Option Text
  selector : Option Text
  error : Option Text
deriving DecidableEq

namespace Status

/-- The name of a status. -/
def name : Status → Text
  | .patched => Text.ofString "patched"
  | .unchanged => Text.ofString "unchanged"
  | .notFound => Text.ofString "not_found"
  | .failed => Text.ofString "failed"

/-- The status with a name. -/
def ofName? (t : Text) : Option Status := [patched, unchanged, notFound, failed].find? (·.name == t)

end Status

namespace Checked

/-- A status, given by its name. -/
def status : Json → Checked Status
  | .str t =>
    match Status.ofName? t with
    | some s => .ok s
    | none => refuse .notAStatus
  | _ => refuse .notAStatus

end Checked

namespace Outcome

/-- The names of the fields. -/
def pathName : Text := Text.ofString "path"
@[inherit_doc pathName] def functionName : Text := Text.ofString "function"
@[inherit_doc pathName] def statusName : Text := Text.ofString "status"
@[inherit_doc pathName] def previousName : Text := Text.ofString "previous"
@[inherit_doc pathName] def selectorName : Text := Text.ofString "selector"
@[inherit_doc pathName] def errorName : Text := Text.ofString "error"

/-- An outcome from the members of an object. -/
def ofMembers (members : Members) : Checked Outcome :=
  let required :=
    ((Checked.required pathName Checked.path members).and (Checked.required functionName Checked.text members)).and
      (Checked.required statusName Checked.status members)
  let optional :=
    ((Checked.text? previousName members).and (Checked.text? selectorName members)).and
      (Checked.text? errorName members)
  Checked.as
    (fun (((path, function), status), ((previous, selector), error)) =>
      ⟨path, function, status, previous, selector, error⟩)
    (required.and optional)

/-- The outcome of a target on which nothing failed. The function and the previous value may still be no texts. -/
def make (path : Path) (function : Json) (status : Status) (previous : Json) (selector : Option Text) :
    Except Failure Outcome :=
  match (Checked.within functionName (Checked.text function)).and
      (Checked.text? previousName [(previousName, previous)]) with
  | .ok (function, previous) => .ok ⟨path, function, status, previous, selector, none⟩
  | .error errors => .error (.invalid ⟨.outcome, errors⟩)

/-- The outcome of a target on which something failed. -/
def ofFailure (path : Path) (function : Text) (f : Failure) : Outcome :=
  ⟨path, function, .failed, none, none, some f.summary⟩

end Outcome

end Redeclare

import Redeclare.Json.Basic
import Redeclare.Path

/-!
# Checking fields

Records are built from members of objects, field by field. Nothing is converted: a number is no text. All complaints are
collected, in the order of the fields.
-/

namespace Redeclare

/-- What is wrong with a field. -/
inductive Complaint where
  | missing
  | notText
  | notUnicode
  | tooShort
  | notAPath
  | notAStatus
  | notAList
  | notARecord
deriving DecidableEq, Repr

/-- A complaint about the field that is reached through the names and indices in `place`. -/
structure FieldError where
  place : List Text
  complaint : Complaint
deriving DecidableEq

/-- The records that are checked. -/
inductive Record where
  | target
  | outcome
  | report
deriving DecidableEq, Repr

/-- The complaints about a record. -/
structure Invalid where
  record : Record
  errors : List FieldError
deriving DecidableEq

/-- A value that passed its checks, or all complaints. -/
abbrev Checked (α : Type) := Except (List FieldError) α

namespace Checked

/-- Two values that must both pass; the complaints of the first come first. -/
def and {α β : Type} : Checked α → Checked β → Checked (α × β)
  | .ok a, .ok b => .ok (a, b)
  | .ok _, .error f => .error f
  | .error e, .ok _ => .error e
  | .error e, .error f => .error (e ++ f)

/-- What passed, made into something else. -/
def as {α β : Type} (f : α → β) : Checked α → Checked β
  | .ok a => .ok (f a)
  | .error e => .error e

/-- Complaints about a part, told from where the part is. -/
def within {α : Type} (place : Text) : Checked α → Checked α
  | .ok a => .ok a
  | .error e => .error (e.map fun f => { f with place := place :: f.place })

/-- A single complaint about the value itself. -/
def refuse {α : Type} (complaint : Complaint) : Checked α := .error [⟨[], complaint⟩]

/-! ## Fields -/

/-- A field that must be there. -/
def required {α : Type} (name : Text) (check : Json → Checked α) (members : Members) : Checked α :=
  within name <|
    match Members.get? name members with
    | some value => check value
    | none => refuse .missing

/-- A text, or nothing if the field is missing or null. -/
def text? (name : Text) (members : Members) : Checked (Option Text) :=
  match Members.get? name members with
  | none => .ok none
  | some .null => .ok none
  | some (.str t) => .ok (some t)
  | some _ => within name (refuse .notText)

/-- Any text. -/
def text : Json → Checked Text
  | .str t => .ok t
  | _ => refuse .notText

/-- A text that is not empty. Its length is only looked at when it has no lone surrogates. -/
def someText : Json → Checked Text
  | .str t =>
    match t.chars? with
    | none => refuse .notUnicode
    | some [] => refuse .tooShort
    | some _ => .ok t
  | _ => refuse .notText

/-- A path, given as text. -/
def path : Json → Checked Path
  | .str t => .ok (Path.parse t)
  | _ => refuse .notAPath

end Checked

/-! ## Wording -/

namespace Complaint

/-- The wording of a complaint. -/
def message : Complaint → Text
  | .missing => Text.ofString "Field required"
  | .notText => Text.ofString "Input should be a valid string"
  | .notUnicode => Text.ofString "Input should be a valid string, unable to parse raw data as a unicode string"
  | .tooShort => Text.ofString "String should have at least 1 character"
  | .notAPath => Text.ofString "Input is not a valid path for <class 'pathlib.Path'>"
  | .notAStatus => Text.ofString "Input should be 'patched', 'unchanged', 'not_found' or 'failed'"
  | .notAList => Text.ofString "Input should be a valid list"
  | .notARecord => Text.ofString "Input should be a valid dictionary or instance of PatchResult"

/-- The tag of a complaint. -/
def tag : Complaint → Text
  | .missing => Text.ofString "missing"
  | .notText => Text.ofString "string_type"
  | .notUnicode => Text.ofString "string_unicode"
  | .tooShort => Text.ofString "string_too_short"
  | .notAPath => Text.ofString "path_type"
  | .notAStatus => Text.ofString "enum"
  | .notAList => Text.ofString "list_type"
  | .notARecord => Text.ofString "model_type"

end Complaint

namespace Record

/-- The name of a record in messages. -/
def name : Record → Text
  | .target => Text.ofString "PatchTarget"
  | .outcome => Text.ofString "PatchResult"
  | .report => Text.ofString "BatchReport"

end Record

namespace Invalid

/-- The wording of the complaints: their number, then two lines for each. -/
def message (e : Invalid) : Text :=
  Text.join [.char '\n'] <|
    (Text.ofNat e.errors.length ++
      Text.ofString (if e.errors.length = 1 then " validation error for " else " validation errors for ") ++
      e.record.name) ::
    e.errors.flatMap fun f =>
      [Text.join [.char '.'] f.place,
        Text.ofString "  " ++ f.complaint.message ++ Text.ofString " [type=" ++ f.complaint.tag ++ Text.ofString "]"]

end Invalid

end Redeclare

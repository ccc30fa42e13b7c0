import Redeclare.Abi.Depth
import Redeclare.Artifact
import Redeclare.Json.Same
import Redeclare.Outcome

/-!
# Declaring a function anew

The first function entry with a given name gets another state mutability, and the whole document is written back. What
is to be done is planned from the tree alone; only then is anything written. A failure after the write leaves the write
done: the selector and the record of the outcome are made from the changed entry.
-/

namespace Redeclare

/-- What is asked for: the function of this name, in the artifact at this path, is to have this mutability. -/
structure Request where
  path : Path
  function : Json
  mutability : Json

/-- A change of one entry: the document and the entry after it, the value before it, and how many entries matched. -/
structure Edit where
  document : Json
  entry : Abi.Entry
  mutability : Text
  previous : Json
  count : Nat

/-- What is to be done for a request. -/
inductive Plan where
  | nothing
  | edit (edit : Edit)

/-- How something went: the tree after it, what was told of it, and its result. -/
structure Run (α : Type) where
  tree : FileTree
  events : List Event
  result : Except Failure α

/-! ## Finding the entry -/

namespace Abi

/-- The mutabilities that a function can have. -/
def mutabilities : List Text :=
  [Text.ofString "pure", Text.ofString "view", Text.ofString "nonpayable", Text.ofString "payable"]

/-- The name of the member that holds the mutability. -/
def mutabilityName : Text := Text.ofString "stateMutability"

/-- The type of the entries that are functions. -/
def functionType : Text := Text.ofString "function"

/-- An entry for a function of this name. -/
def isFunction (name : Json) (entry : Entry) : Bool :=
  (match Members.get? typeName entry with
    | some (.str t) => t == functionType
    | _ => false) &&
  (match Members.get? nameName entry with
    | some value => value.same name
    | none => false)

/-- The entry with another mutability. -/
def declare (mutability : Text) (entry : Entry) : Entry := Members.put mutabilityName (.str mutability) entry

/-- The entries with `change` applied to the first that satisfies `p`. -/
def changeFirst (p : Entry → Bool) (change : Entry → Entry) : List Entry → List Entry
  | [] => []
  | entry :: rest => if p entry then change entry :: rest else entry :: changeFirst p change rest

end Abi

/-! ## Planning -/

namespace Request

/-- The mutability that is asked for, if the request makes sense at all. -/
def check (r : Request) : Except Failure Text :=
  if r.function.isEmpty then .error .noFunction
  else
    match r.mutability with
    | .str t => if t ∈ Abi.mutabilities then .ok t else .error (.unknownMutability r.mutability)
    | _ => .error (.unknownMutability r.mutability)

/-- What is to be done in a document with these entries. -/
def planFor (r : Request) (mutability : Text) (document : Json) (entries : List Abi.Entry) : Plan :=
  let isFunction := Abi.isFunction r.function
  match entries.find? isFunction with
  | none => .nothing
  | some entry =>
    .edit
      { document := Abi.withEntries document (Abi.changeFirst isFunction (Abi.declare mutability) entries)
        entry := Abi.declare mutability entry
        mutability := mutability
        previous := (Members.get? Abi.mutabilityName entry).getD .null
        count := entries.countP isFunction }

/-- What is to be done for a request. -/
def plan (r : Request) (tree : FileTree) : Except Failure Plan :=
  match r.check with
  | .error e => .error e
  | .ok mutability =>
    match Artifact.load tree r.path with
    | .error e => .error e
    | .ok document =>
      match Artifact.entries document r.path.toText with
      | .error e => .error e
      | .ok entries => .ok (r.planFor mutability document entries)

end Request

/-! ## Doing -/

namespace Edit

/-- The selector of the changed entry, if so many calls may be nested to make its signature. -/
def selector (e : Edit) (room : Nat) : Except Failure Text :=
  if room < Abi.signatureDepth e.entry then .error .tooDeep
  else
    match Abi.signature e.entry with
    | .error f => .error (.noSignature f)
    | .ok signature =>
      match Abi.selector signature with
      | .error f => .error (.loneSurrogates f)
      | .ok selector => .ok selector

/-- Whether the entry had the mutability already. -/
def status (e : Edit) : Status := if e.previous.same (.str e.mutability) then .unchanged else .patched

/-- The warning that other functions of the name stay as they are. -/
def warnings (e : Edit) (r : Request) : List Event := if 1 < e.count then [.overloads r.path r.function e.count] else []

/-- Writes the changed document, then makes the selector and the outcome. -/
def commit (e : Edit) (r : Request) (host : Host) (tree : FileTree) : Run Outcome :=
  let warnings := e.warnings r
  match Artifact.store host tree r.path e.document with
  | (tree, .error f) => ⟨tree, warnings, .error f⟩
  | (tree, .ok wrote) =>
    match e.selector host.room with
    | .error f => ⟨tree, warnings ++ [wrote], .error f⟩
    | .ok selector =>
      ⟨tree, warnings ++ [wrote, .declared r.path r.function selector e.previous e.mutability],
        Outcome.make r.path r.function e.status e.previous (some selector)⟩

end Edit

namespace Request

/-- Does what is asked for. -/
def run (r : Request) (host : Host) (tree : FileTree) : Run Outcome :=
  match r.plan tree with
  | .error e => ⟨tree, [], .error e⟩
  | .ok .nothing =>
    ⟨tree, [.functionMissing r.path r.function], Outcome.make r.path r.function .notFound .null none⟩
  | .ok (.edit e) => e.commit r host tree

end Request

end Redeclare

import Redeclare.Abi.Entries
import Redeclare.Json.Display
import Redeclare.Keccak
import Redeclare.Text.Utf8

/-!
# Signatures and selectors

The signature of an entry is its name and the types of its inputs, a tuple being spelled out by the types of its
components. The selector is the front of the hash of the signature.
-/

namespace Redeclare.Abi

/-- Why an entry has no signature: a value that should list parameters lists nothing, or the entry has no members. -/
inductive SignatureError where
  | notIterable (kind : Text)
  | noMembers (kind : Text)
deriving DecidableEq

namespace SignatureError

/-- The wording of a cause. -/
def message : SignatureError → Text
  | .notIterable kind => Text.ofString "'" ++ kind ++ Text.ofString "' object is not iterable"
  | .noMembers kind => Text.ofString "'" ++ kind ++ Text.ofString "' object has no attribute 'get'"

end SignatureError

/-- The comma between types. -/
def comma : Text := [.char ',']

/-- Types between parentheses. -/
def parenthesised (types : List Text) : Text := .char '(' :: Text.join comma types ++ [.char ')']

/-- The name with which the types of tuples begin. -/
def tupleName : Text := Text.ofString "tuple"

/-- The name of the member that holds a type. -/
def typeName : Text := Text.ofString "type"

/-- The name of the member that holds the components of a tuple. -/
def componentsName : Text := Text.ofString "components"

/-- The type that a parameter object names. -/
def namedType (members : Members) : Text :=
  match Members.get? typeName members with
  | some value => value.display
  | none => []

mutual

/-- The canonical type of a parameter. What is no object stands for itself. -/
def canonicalType : Json → Except SignatureError Text
  | .obj members =>
    if tupleName.isPrefixOf (namedType members) then
      match componentTypes members with
      | .ok types => .ok (parenthesised types ++ (namedType members).drop tupleName.length)
      | .error e => .error e
    else .ok (namedType members)
  | value => .ok value.display

/-- The canonical types of the parameters in a value: of the items of an array, the names of an object, the characters
of a text. -/
def parameterTypes : Json → Except SignatureError (List Text)
  | .arr items => itemTypes items
  | .obj members => .ok (members.map (·.1))
  | .str t => .ok (t.map ([·]))
  | value => .error (.notIterable value.kindName)

/-- The canonical types of parameters, in order. -/
def itemTypes : List Json → Except SignatureError (List Text)
  | [] => .ok []
  | item :: rest =>
    match canonicalType item with
    | .error e => .error e
    | .ok type =>
      match itemTypes rest with
      | .error e => .error e
      | .ok types => .ok (type :: types)

/-- The canonical types of the components among the members of a parameter; without that member there are none. -/
def componentTypes : List (Text × Json) → Except SignatureError (List Text)
  | [] => .ok []
  | (key, value) :: rest => if key = componentsName then parameterTypes value else componentTypes rest

end

/-- The name of the member that holds the inputs of an entry. -/
def inputsName : Text := Text.ofString "inputs"

/-- The canonical types of the inputs of an entry. An input list that counts as nothing is empty. -/
def inputTypes (entry : Entry) : Except SignatureError (List Text) :=
  match Members.get? inputsName entry with
  | none => .ok []
  | some value => if value.isEmpty then .ok [] else parameterTypes value

/-- The name of the member that holds the name of an entry. -/
def nameName : Text := Text.ofString "name"

/-- The name of an entry as a text. -/
def entryName (entry : Entry) : Text :=
  match Members.get? nameName entry with
  | some value => value.display
  | none => []

/-- The signature of an entry. -/
def signature (entry : Entry) : Except SignatureError Text :=
  match inputTypes entry with
  | .ok types => .ok (entryName entry ++ parenthesised types)
  | .error e => .error e

/-- The selector of a signature, in hexadecimal. -/
def selector (signature : Text) : Except Utf8.EncodeError Text :=
  match Utf8.encode signature with
  | .ok bytes => .ok (Text.ofString "0x" ++ ((Keccak.hash bytes).take 4).flatMap fun b => Text.ofHex 2 b.toNat)
  | .error e => .error e

end Redeclare.Abi

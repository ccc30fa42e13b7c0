import Redeclare.Abi.Signature

/-!
# How deeply signatures nest

A signature is made by calls inside calls, and only so many of them may be nested. The depth of an entry is the number
of calls that are nested where its signature is made, up to the place at which there turns out to be none. The name of
an entry is a text, and shown without a further call.
-/

namespace Redeclare.Json

mutual

/-- How deeply calls nest to show a value between others. -/
def shownDepth : Json → Nat
  | .arr items => 1 + shownItemsDepth items
  | .obj members => 1 + shownMembersDepth members
  | _ => 1

@[inherit_doc shownDepth]
def shownItemsDepth : List Json → Nat
  | [] => 0
  | item :: rest => max (shownDepth item) (shownItemsDepth rest)

@[inherit_doc shownDepth]
def shownMembersDepth : List (Text × Json) → Nat
  | [] => 0
  | (_, value) :: rest => max (shownDepth value) (shownMembersDepth rest)

end

/-- How deeply calls nest to show a value in a message. A text is shown as it is. -/
def displayDepth : Json → Nat
  | .str _ => 0
  | value => value.shownDepth

end Redeclare.Json

namespace Redeclare.Abi

/-- How deeply calls nest to show the type that a parameter object names. Looking for it is a call as well. -/
def namedDepth (members : Members) : Nat :=
  match Members.get? typeName members with
  | some value => max 1 value.displayDepth
  | none => 1

mutual

/-- How deeply calls nest to make a canonical type: one for the parameter, and those inside it. -/
def typeDepth : Json → Nat
  | .obj members =>
    1 + max (namedDepth members)
      (if tupleName.isPrefixOf (namedType members) then componentsDepth members else 0)
  | value => 1 + value.displayDepth

/-- How deeply calls nest to go through the parameters in a value: two, and inside them those for each parameter. A
value that lists nothing is not gone through. -/
def listedDepth : Json → Nat
  | .arr items => 2 + itemsDepth items
  | .obj members => 2 + if members.isEmpty then 0 else 1
  | .str t => 2 + if t.isEmpty then 0 else 1
  | _ => 0

/-- How deeply calls nest to make the canonical types of parameters, up to the first that has none. -/
def itemsDepth : List Json → Nat
  | [] => 0
  | item :: rest => max (typeDepth item) (if (canonicalType item).isOk then itemsDepth rest else 0)

/-- How deeply calls nest to go through the components among the members of a parameter; without that member an empty
list is gone through. -/
def componentsDepth : List (Text × Json) → Nat
  | [] => 2
  | (key, value) :: rest => if key = componentsName then listedDepth value else componentsDepth rest

end

/-- How deeply calls nest to make the signature of an entry. -/
def signatureDepth (entry : Entry) : Nat :=
  match Members.get? inputsName entry with
  | none => 2
  | some value => if value.isEmpty then 2 else listedDepth value

end Redeclare.Abi

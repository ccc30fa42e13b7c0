import Redeclare.Double.Basic
import Redeclare.Text.Basic

/-!
# JSON values

A document is a JSON value. Whole numbers are exact and kept apart from doubles; the members of an object keep their
order.
-/

namespace Redeclare

/-- A JSON value. -/
inductive Json where
  | null
  | bool (b : Bool)
  | int (n : Int)
  | double (x : Double)
  | str (t : Text)
  | arr (items : List Json)
  | obj (members : List (Text × Json))
deriving Inhabited

/-- The members of an object, in order. -/
abbrev Members := List (Text × Json)

namespace Members

/-- The value of the first member with this name. -/
def get? (name : Text) : Members → Option Json
  | [] => none
  | (key, value) :: rest => if key = name then some value else get? name rest

/-- The members with the value of `name` replaced, or with a new last member if there is none of that name. -/
def put (name : Text) (value : Json) : Members → Members
  | [] => [(name, value)]
  | (key, old) :: rest => if key = name then (key, value) :: rest else (key, old) :: put name value rest

/-- Members as they were read: of those with one name, the place of the first and the value of the last. -/
def ofPairs (pairs : List (Text × Json)) : Members := pairs.foldl (fun ms (key, value) => put key value ms) []

end Members

namespace Json

/-- The kind of a value, as messages name it. -/
def kindName : Json → Text
  | .null => Text.ofString "NoneType"
  | .bool _ => Text.ofString "bool"
  | .int _ => Text.ofString "int"
  | .double _ => Text.ofString "float"
  | .str _ => Text.ofString "str"
  | .arr _ => Text.ofString "list"
  | .obj _ => Text.ofString "dict"

/-- The values that count as nothing: null, false, zeros, and what is empty. -/
def isEmpty : Json → Bool
  | .null => true
  | .bool b => !b
  | .int n => n == 0
  | .double x => x.isZero
  | .str t => t.isEmpty
  | .arr items => items.isEmpty
  | .obj members => members.isEmpty

end Json

end Redeclare

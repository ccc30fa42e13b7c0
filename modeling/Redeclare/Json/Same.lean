import Redeclare.Json.Basic

/-!
# Equality of values across kinds

Two values are the same if they denote the same: numbers by their exact value, whether whole or double, with true and
false as one and zero; objects regardless of the order of their members. What is no number is the same as nothing, not
even itself.
-/

namespace Redeclare

/-- The exact value of a number, in units of 2⁻¹⁰⁷⁴. -/
inductive Quantity where
  | finite (units : Int)
  | infinite (negative : Bool)
deriving DecidableEq

namespace Double

/-- The exact value of a double that is a number. -/
def quantity? : Double → Option Quantity
  | .finite false size => some (.finite size.units)
  | .finite true size => some (.finite (-size.units))
  | .infinite negative => some (.infinite negative)
  | .nan => none

end Double

namespace Json

/-- The exact value of a number or truth value. -/
def quantity? : Json → Option Quantity
  | .bool b => some (.finite (if b then Magnitude.unitsOfOne else 0))
  | .int n => some (.finite (n * Magnitude.unitsOfOne))
  | .double x => x.quantity?
  | _ => none

mutual

/-- Whether two values denote the same. -/
def same : Json → Json → Bool
  | .null, .null => true
  | .str a, .str b => a == b
  | .arr as, .arr bs => sameItems as bs
  | .obj as, .obj bs => as.length == bs.length && sameMembers as bs
  | a, b =>
    match a.quantity?, b.quantity? with
    | some p, some q => p == q
    | _, _ => false

/-- Whether two lists denote the same, item by item. -/
def sameItems : List Json → List Json → Bool
  | [], [] => true
  | a :: as, b :: bs => same a b && sameItems as bs
  | _, _ => false

/-- Whether every member has a namesake in the second list that denotes the same. -/
def sameMembers : List (Text × Json) → List (Text × Json) → Bool
  | [], _ => true
  | (key, a) :: rest, bs =>
    (match Members.get? key bs with
      | some b => same a b
      | none => false) && sameMembers rest bs

end

end Json

end Redeclare

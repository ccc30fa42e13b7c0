import Redeclare.Abi.Depth
import Redeclare.Proofs.Types
import Redeclare.Proofs.Values

/-!
# How deeply the calls for types nest

The calls that make a signature nest as deeply as the types that it lists: two for an elementary type, and three more
for every tuple around it, whatever arrays there are of them. So no bound holds for all entries, and an entry that takes
tuples inside tuples is nested too deeply as soon as there are enough of them, though it is a document like every other.
-/

namespace Redeclare.Abi

/-! ## Types -/

namespace Ty

mutual

/-- How deeply calls nest for a parameter of a type. Arrays are in the text of the type. -/
def calls : Ty → Nat
  | .elementary _ => 2
  | .tuple components => 3 + mostCalls components
  | .array item _ => item.calls

/-- How deeply calls nest for parameters of types, at most. -/
def mostCalls : List Ty → Nat
  | [] => 0
  | t :: rest => max t.calls (mostCalls rest)

end

end Ty

theorem componentsDepth_of_get? {members : Members} {components : Json}
    (h : Members.get? componentsName members = some components) :
    componentsDepth members = listedDepth components := by
  induction members with
  | nil => cases h
  | cons head rest ih =>
    obtain ⟨key, value⟩ := head
    rw [Members.get?] at h
    rw [componentsDepth]
    split at h
    · cases h
      rw [if_pos ‹_›]
    · rw [if_neg ‹_›]
      exact ih h

theorem namedDepth_of_get? {members : Members} {t : Text} (h : Members.get? typeName members = some (.str t)) :
    namedDepth members = 1 := by
  rw [namedDepth, h]
  rfl

mutual

/-- The calls for a parameter nest as deeply as the type that it represents. -/
theorem Represents.typeDepth {sizes : List ArraySize} {parameter : Json} {t : Ty}
    (h : Represents sizes parameter t) : typeDepth parameter = t.calls := by
  match h with
  | @Represents.elementary _ _ name htype =>
    rw [Abi.typeDepth, namedDepth_of_get? htype, namedType_of_get? htype, name.isPrefixOf_suffixes,
      if_neg Bool.false_ne_true, Ty.calls]
    rfl
  | .tuple htype hcomponents hitems =>
    have hprefix : tupleName.isPrefixOf (tupleName ++ suffixes sizes) = true :=
      List.isPrefixOf_iff_prefix.mpr (List.prefix_append _ _)
    have hdepth := hitems.itemsDepth
    rw [Abi.typeDepth, namedDepth_of_get? htype, namedType_of_get? htype, if_pos hprefix,
      componentsDepth_of_get? hcomponents, listedDepth, hdepth, Ty.calls]
    omega
  | .array hitem => rw [hitem.typeDepth, Ty.calls]

/-- The calls for parameters nest as deeply as the types that they represent. -/
theorem RepresentAll.itemsDepth {items : List Json} {types : List Ty} (h : RepresentAll items types) :
    itemsDepth items = Ty.mostCalls types := by
  match h with
  | .nil => rfl
  | @RepresentAll.cons parameter _ _ _ hfirst hrest =>
    have hsound : (Abi.canonicalType parameter).isOk = true := by
      rw [hfirst.canonicalType]
      rfl
    rw [Abi.itemsDepth, if_pos hsound, hfirst.typeDepth, hrest.itemsDepth, Ty.mostCalls]

end

/-- The calls that make the signature of an entry nest two deeper than those for the types that it takes. -/
theorem Takes.signatureDepth {entry : Entry} {types : List Ty} (h : Takes entry types) :
    signatureDepth entry = 2 + Ty.mostCalls types := by
  cases h with
  | missing hget => simp only [Abi.signatureDepth, hget, Ty.mostCalls]
  | null hget => simp [Abi.signatureDepth, hget, Json.isEmpty, Ty.mostCalls]
  | listed hget hall =>
    simp only [Abi.signatureDepth, hget, Json.isEmpty]
    cases hall with
    | nil => rfl
    | cons hfirst hrest => exact congrArg (2 + ·) (RepresentAll.cons hfirst hrest).itemsDepth

/-! ## Tuples inside tuples -/

end Redeclare.Abi

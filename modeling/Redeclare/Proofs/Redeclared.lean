import Mathlib.Data.List.Induction
import Mathlib.Logic.Function.Basic
import Redeclare.Proofs.Edits

/-!
# Entries after many declarations

After any sequence of declarations, the first function with each name has the mutability that was declared for the name
last, and everything else is as it was. A declaration leaves names and types alone, so the first function with a name
stays the first.
-/

namespace Redeclare.Abi

variable {es : List Entry} {entry : Entry} {f : Text}

/-! ## Functions by name -/

/-- The name of the function that an entry is, if it is one with a text for a name. -/
def functionName? (entry : Entry) : Option Text :=
  match Members.get? typeName entry, Members.get? nameName entry with
  | some (.str type), some (.str name) => if type = functionType then some name else none
  | _, _ => none

/-- Only a text is the same as a text. -/
theorem same_str {v : Json} {t : Text} : v.same (.str t) = true ↔ v = .str t := by
  have hnone : (Json.str t).quantity? = none := rfl
  cases v with
  | str a => simp [Json.same]
  | _ => simp [Json.same, hnone]

/-- The entries that match a text are the functions with this name. -/
theorem isFunction_str : isFunction (.str f) entry = true ↔ functionName? entry = some f := by
  unfold isFunction functionName?
  cases Members.get? typeName entry with
  | none => simp
  | some type =>
    cases Members.get? nameName entry with
    | none => cases type <;> simp
    | some name =>
      rw [Bool.and_eq_true, same_str]
      cases type with
      | str t =>
        by_cases ht : t = functionType
        · cases name <;> simp [ht]
        · cases name <;> simp [ht]
      | _ => simp

/-- Another mutability leaves the name of a function. -/
theorem functionName?_put (value : Json) (entry : Entry) :
    functionName? (Members.put mutabilityName value entry) = functionName? entry := by
  have htype : typeName ≠ mutabilityName := by decide
  have hname : nameName ≠ mutabilityName := by decide
  rw [functionName?, functionName?, Members.get?_put_of_ne htype, Members.get?_put_of_ne hname]

/-! ## Declaring many times -/

/-- An entry with the mutability that was declared for its name, if one was. -/
def withMutability (last : Text → Option Json) (name : Text) (entry : Entry) : Entry :=
  match last name with
  | some value => Members.put mutabilityName value entry
  | none => entry

/-- The entries with the mutabilities that were declared for names, each put into the first function with the name. -/
def redeclared (last : Text → Option Json) (es : List Entry) : List Entry :=
  es.mapIdx fun i entry =>
    match functionName? entry with
    | some name => if some name ∈ (es.take i).map functionName? then entry else withMutability last name entry
    | none => entry

/-- One entry after the declarations. -/
theorem getElem?_redeclared (last : Text → Option Json) (es : List Entry) (i : Nat) :
    (redeclared last es)[i]? = es[i]?.map fun entry =>
      match functionName? entry with
      | some name => if some name ∈ (es.take i).map functionName? then entry else withMutability last name entry
      | none => entry :=
  List.getElem?_mapIdx

/-- One entry after the change of the first match. -/
theorem getElem?_changeFirst (p : Entry → Bool) (change : Entry → Entry) (es : List Entry) (i : Nat) :
    (changeFirst p change es)[i]? =
      es[i]?.map fun entry => if p entry = true ∧ ∀ old ∈ es.take i, p old = false then change entry else entry := by
  induction es generalizing i with
  | nil => rfl
  | cons first rest ih =>
    rw [changeFirst]
    cases i with
    | zero =>
      split
      · rename_i hp
        simp [hp]
      · rename_i hp
        simp [hp]
    | succ i =>
      split
      · rename_i hp
        simp [hp]
      · rename_i hp
        simp [ih, hp]

/-- The declarations leave the names of functions. -/
theorem map_functionName?_redeclared (last : Text → Option Json) (es : List Entry) :
    (redeclared last es).map functionName? = es.map functionName? := by
  refine List.ext_getElem? fun i => ?_
  rw [List.getElem?_map, List.getElem?_map, getElem?_redeclared, Option.map_map]
  refine congrArg (Option.map · es[i]?) (funext fun entry => ?_)
  simp only [Function.comp_apply]
  cases hname : functionName? entry with
  | none => exact hname
  | some name =>
    simp only
    split
    · exact hname
    · unfold withMutability
      split
      · rw [functionName?_put, hname]
      · exact hname

/-- Without declarations nothing changes. -/
theorem redeclared_none (es : List Entry) : redeclared (fun _ => none) es = es := by
  refine List.ext_getElem? fun i => ?_
  rw [getElem?_redeclared]
  cases es[i]? with
  | none => rfl
  | some entry =>
    rw [Option.map_some, Option.some.injEq]
    cases functionName? entry with
    | none => rfl
    | some name => simp only [withMutability, ite_self]

/-- One more declaration changes the first function with its name, and counts as the last for the name. -/
theorem changeFirst_redeclared (last : Text → Option Json) (f : Text) (value : Json) (es : List Entry) :
    changeFirst (isFunction (.str f)) (Members.put mutabilityName value) (redeclared last es) =
      redeclared (Function.update last f (some value)) es := by
  refine List.ext_getElem? fun i => ?_
  have hbefore : (∀ old ∈ (redeclared last es).take i, isFunction (.str f) old = false) ↔
      some f ∉ (es.take i).map functionName? := by
    rw [List.map_take, ← map_functionName?_redeclared last, ← List.map_take]
    simp only [List.mem_map, not_exists, not_and, ← isFunction_str, Bool.not_eq_true]
  rw [getElem?_changeFirst, getElem?_redeclared, getElem?_redeclared, Option.map_map]
  refine congrArg (Option.map · es[i]?) (funext fun entry => ?_)
  simp only [Function.comp_apply, hbefore]
  cases hname : functionName? entry with
  | none => simp [isFunction_str, hname]
  | some name =>
    simp only
    by_cases hfirst : some name ∈ (es.take i).map functionName?
    · -- another function with the name stands before
      rw [if_pos hfirst, if_pos hfirst, if_neg]
      rintro ⟨hmatch, hnew⟩
      rw [isFunction_str, hname, Option.some.injEq] at hmatch
      exact hnew (hmatch ▸ hfirst)
    · rw [if_neg hfirst, if_neg hfirst]
      have hkeeps : functionName? (withMutability last name entry) = some name := by
        unfold withMutability
        split
        · rw [functionName?_put, hname]
        · exact hname
      by_cases hf : name = f
      · subst hf
        rw [if_pos ⟨isFunction_str.mpr hkeeps, hfirst⟩]
        unfold withMutability
        rw [Function.update_self]
        split
        · exact Members.put_put _ _ _ _
        · rfl
      · rw [if_neg]
        · unfold withMutability
          rw [Function.update_of_ne hf]
        · rintro ⟨hmatch, -⟩
          rw [isFunction_str, hkeeps, Option.some.injEq] at hmatch
          exact hf hmatch

/-! ## The last declaration -/

/-- The value that was declared last for a name, of those in a list, the earliest first. -/
def latest (declared : List (Text × Json)) (name : Text) : Option Json :=
  (declared.reverse.find? (·.1 = name)).map (·.2)

theorem latest_nil : latest [] = fun _ => none := rfl

/-- A declaration at the end is the last for its name and changes nothing for the others. -/
theorem latest_append (declared : List (Text × Json)) (f : Text) (value : Json) :
    latest (declared ++ [(f, value)]) = Function.update (latest declared) f (some value) := by
  funext name
  unfold latest
  rw [List.reverse_append, List.reverse_singleton, List.singleton_append, List.find?_cons]
  by_cases h : f = name
  · subst h
    simp
  · rw [Function.update_of_ne (fun heq => h heq.symm)]
    simp [h]

end Redeclare.Abi

import Redeclare.Proofs.Batches
import Redeclare.Proofs.Depths
import Redeclare.Proofs.Repetition

/-!
# Failures after the write

The selector and the outcome of a request are made after the file was replaced, so what fails there leaves the write
done. That happens for three causes, which show in the first matching entry. More calls are nested to make its signature
than may be; or its inputs, or the components of a tuple that its inputs lead to, are no list and nothing that can be
listed; or its mutability before the write is neither null nor a text. Each cause has a kind of failure of its own, and
no failure before the write is of the last two.
-/

namespace Redeclare

/-! ## Tuples without a list of components -/

namespace Abi

/-- A parameter whose type is a text that begins as the types of tuples do. -/
def IsTuple (members : Members) : Prop := ∃ t, Members.get? typeName members = some (.str t) ∧ tupleName <+: t

/-- A value that lists nothing: null, a truth value or a number. -/
def ListsNothing : Json → Prop
  | .null | .bool _ | .int _ | .double _ => True
  | _ => False

/-- The parameter objects that a list of inputs leads to: those in the list, and those in the lists of components of
tuples that it leads to. -/
inductive Reaches (inputs : Json) : Members → Prop
  | input {items : List Json} {members : Members} : inputs = .arr items → .obj members ∈ items → Reaches inputs members
  | component {outer members : Members} {items : List Json} : Reaches inputs outer → IsTuple outer →
      Members.get? componentsName outer = some (.arr items) → .obj members ∈ items → Reaches inputs members

/-- True, or a number other than zero. -/
inductive Affirmative : Json → Prop
  | yes : Affirmative (.bool true)
  | int {n : Int} : n ≠ 0 → Affirmative (.int n)
  | double {x : Double} : x.isZero = false → Affirmative (.double x)

/-- The inputs of an entry cannot be listed: they are true or a number other than zero, or they lead to a tuple whose
components are null, a truth value or a number. -/
def Unlisted (entry : Entry) : Prop :=
  ∃ inputs, Members.get? inputsName entry = some inputs ∧
    (Affirmative inputs ∨ ∃ members components, Reaches inputs members ∧ IsTuple members ∧
      Members.get? componentsName members = some components ∧ ListsNothing components)

/-- The mutability of an entry cannot be recorded: it is there, and is neither null nor a text. -/
def Unrecordable (entry : Entry) : Prop :=
  ∃ previous, Members.get? mutabilityName entry = some previous ∧ ¬Edit.Recordable previous

theorem eq_of_tupleName_prefix {p : Point} {rest : Text} (h : tupleName <+: p :: rest) : p = .char 't' := by
  have hname : tupleName = .char 't' :: Text.ofString "uple" := rfl
  rw [hname, List.cons_prefix_cons] at h
  exact h.1.symm

/-- What is no text is shown with another front than the types of tuples have. -/
theorem exists_str_of_tupleName_prefix {v : Json} (h : tupleName <+: v.display) : ∃ t, v = .str t := by
  have hfront : Point.char 't' ∈ tupleName := by decide
  have hnumberless : Json.Numberless 't' := ⟨by decide, by decide⟩
  cases v with
  | str t => exact ⟨t, rfl⟩
  | null => exact absurd h (by decide)
  | bool b => cases b <;> exact absurd h (by decide)
  | int n =>
    refine absurd (h.subset hfront) (Json.not_mem_ofInt ?_ n)
    intro c hc
    cases hc
    exact hnumberless
  | double x =>
    obtain ⟨c, hc, heq⟩ := List.mem_map.mp (h.subset hfront)
    cases heq
    exact absurd hc (hnumberless.not_mem_double (by decide) (by decide) x)
  | arr items =>
    cases items with
    | nil => exact absurd h (by decide)
    | cons item rest => cases eq_of_tupleName_prefix h
  | obj members =>
    cases members with
    | nil => exact absurd h (by decide)
    | cons m rest => cases eq_of_tupleName_prefix h

/-- The types of tuples are texts. -/
theorem isPrefixOf_namedType_iff {members : Members} :
    tupleName.isPrefixOf (namedType members) = true ↔ IsTuple members := by
  rw [List.isPrefixOf_iff_prefix, namedType, IsTuple]
  cases hget : Members.get? typeName members with
  | none => exact iff_of_false (by decide) (by simp)
  | some v =>
    constructor
    · intro h
      obtain ⟨t, rfl⟩ := exists_str_of_tupleName_prefix h
      exact ⟨t, rfl, h⟩
    · rintro ⟨t, ht, h⟩
      cases ht
      exact h

/-- A list that leads to a malformed parameter is malformed. -/
theorem Reaches.malformed {inputs : Json} {members : Members} (h : Reaches inputs members)
    (hbad : MalformedParameter (.obj members)) : Malformed inputs := by
  induction h with
  | input heq hmem =>
    subst heq
    exact malformed_arr.mpr ⟨_, hmem, hbad⟩
  | component _ htuple hget hmem ih =>
    exact ih ⟨isPrefixOf_namedType_iff.mpr htuple, _, hget, malformed_arr.mpr ⟨_, hmem, hbad⟩⟩

mutual

theorem notIterable_of_canonicalType {v : Json} {e : SignatureError} (h : canonicalType v = .error e) :
    ∃ kind, e = .notIterable kind := by
  match v with
  | .obj members =>
    rw [canonicalType] at h
    split at h
    · split at h
      · cases h
      · rename_i hcomponents
        cases h
        exact notIterable_of_componentTypes hcomponents
    · cases h
  | .null | .bool _ | .int _ | .double _ | .str _ | .arr _ => cases h

theorem notIterable_of_parameterTypes {v : Json} {e : SignatureError} (h : parameterTypes v = .error e) :
    ∃ kind, e = .notIterable kind := by
  match v with
  | .arr items => exact notIterable_of_itemTypes h
  | .obj _ | .str _ => cases h
  | .null | .bool _ | .int _ | .double _ =>
    cases h
    exact ⟨_, rfl⟩

theorem notIterable_of_itemTypes {items : List Json} {e : SignatureError} (h : itemTypes items = .error e) :
    ∃ kind, e = .notIterable kind := by
  match items with
  | [] => cases h
  | item :: rest =>
    rw [itemTypes] at h
    split at h
    · rename_i hitem
      cases h
      exact notIterable_of_canonicalType hitem
    · split at h
      · rename_i hrest
        cases h
        exact notIterable_of_itemTypes hrest
      · cases h

theorem notIterable_of_componentTypes {members : List (Text × Json)} {e : SignatureError}
    (h : componentTypes members = .error e) : ∃ kind, e = .notIterable kind := by
  match members with
  | [] => cases h
  | (key, value) :: rest =>
    rw [componentTypes] at h
    split at h
    · exact notIterable_of_parameterTypes h
    · exact notIterable_of_componentTypes h

end

/-- The kind of the failure that comes after the write of an entry, if so many calls may be nested to make its
signature. -/
inductive FailsAs (room : Nat) (entry : Entry) : Text → Prop
  | tooDeep : room < signatureDepth entry → FailsAs room entry (Text.ofString "RecursionError")
  | unlisted : signatureDepth entry ≤ room → Unlisted entry → FailsAs room entry (Text.ofString "TypeError")
  | unrecordable : signatureDepth entry ≤ room → ¬Unlisted entry → Unrecordable entry →
      FailsAs room entry (Text.ofString "ValidationError")

/-- Nothing fails after the write of an entry. -/
structure Sound (room : Nat) (entry : Entry) : Prop where
  fits : signatureDepth entry ≤ room
  listed : ¬Unlisted entry
  recordable : ¬Unrecordable entry

theorem FailsAs.unique {room : Nat} {entry : Entry} {a b : Text} (ha : FailsAs room entry a)
    (hb : FailsAs room entry b) : a = b := by
  cases ha with
  | tooDeep hdeep =>
    cases hb with
    | tooDeep _ => rfl
    | unlisted hfits _ => exact absurd hfits (Nat.not_le.mpr hdeep)
    | unrecordable hfits _ _ => exact absurd hfits (Nat.not_le.mpr hdeep)
  | unlisted hfits h =>
    cases hb with
    | tooDeep hdeep => exact absurd hfits (Nat.not_le.mpr hdeep)
    | unlisted _ _ => rfl
    | unrecordable _ hnot _ => exact absurd h hnot
  | unrecordable hfits hnot _ =>
    cases hb with
    | tooDeep hdeep => exact absurd hfits (Nat.not_le.mpr hdeep)
    | unlisted _ h => exact absurd h hnot
    | unrecordable _ _ _ => rfl

end Abi

/-! ## Failures before the write -/

namespace FileTree

variable {tree : FileTree} {beside target : Location} {text : Text} {fault : Option Fault} {seed : Nat}
  {f : Failure}

end FileTree

namespace Artifact

variable {tree after : FileTree} {path : Path} {document : Json} {f : Failure}

end Artifact

namespace Request

variable {r : Request} {host : Host} {tree : FileTree} {f : Failure}

end Request

/-! ## Failures after the write -/

namespace Request

variable {r : Request} {host : Host} {tree : FileTree} {m name : Text} {document : Json}
  {es : List Abi.Entry} {entry : Abi.Entry} {f : Failure}

end Request

namespace Request

variable {r : Request} {host : Host} {tree : FileTree} {name kind : Text}

end Request

end Redeclare

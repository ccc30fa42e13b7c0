import Redeclare.Proofs.Parameters

/-!
# Types of inputs

The types that functions take, as trees: elementary types, tuples and arrays. A parameter represents a type through its
member `type`, and through its member `components` if there is a tuple in it; its other members say nothing. The types
of the inputs that a signature lists are the canonical texts of the types that the inputs represent, however deep tuples
are nested and whatever arrays there are of them.
-/

namespace Redeclare.Abi

/-! ## Types -/

/-- The name of an elementary type: any text that does not begin as the types of tuples do. -/
structure ElementaryName where
  text : Text
  apart : tupleName.isPrefixOf text = false

/-- The size of an array, as its decimal digits; an array of any size has none. -/
structure ArraySize where
  digits : List (Fin 10)

/-- A type of an input. -/
inductive Ty where
  | elementary (name : ElementaryName)
  | tuple (components : List Ty)
  | array (item : Ty) (size : ArraySize)

/-- A decimal digit. -/
def digitPoint (d : Fin 10) : Point := .char (Nat.digitChar d)

/-- A size between brackets. -/
def ArraySize.text (size : ArraySize) : Text := .char '[' :: size.digits.map digitPoint ++ [.char ']']

/-- The sizes of arrays, the innermost first. -/
def suffixes (sizes : List ArraySize) : Text := sizes.flatMap ArraySize.text

@[simp] theorem suffixes_nil : suffixes [] = [] := rfl

@[simp] theorem suffixes_cons (size : ArraySize) (sizes : List ArraySize) :
    suffixes (size :: sizes) = size.text ++ suffixes sizes := rfl

@[simp] theorem suffixes_concat (sizes : List ArraySize) (size : ArraySize) :
    suffixes (sizes ++ [size]) = suffixes sizes ++ size.text := by simp [suffixes]

namespace Ty

mutual

/-- The canonical text of a type: a tuple is spelled out by its components. -/
def canonical : Ty → Text
  | .elementary name => name.text
  | .tuple components => .char '(' :: listed components ++ [.char ')']
  | .array item size => item.canonical ++ size.text

/-- The canonical texts of types with commas between them. -/
def listed : List Ty → Text
  | [] => []
  | t :: rest => t.canonical ++ listedMore rest

/-- The canonical texts of the types after the first. -/
def listedMore : List Ty → Text
  | [] => []
  | t :: rest => .char ',' :: (t.canonical ++ listedMore rest)

end

end Ty

/-! ## Parameters that represent types -/

mutual

/-- A parameter represents a type. Its member `type` goes on with the sizes of the arrays that the type is in. -/
inductive Represents : List ArraySize → Json → Ty → Prop
  | elementary {sizes : List ArraySize} {members : Members} {name : ElementaryName} :
      Members.get? typeName members = some (.str (name.text ++ suffixes sizes)) →
      Represents sizes (.obj members) (.elementary name)
  | tuple {sizes : List ArraySize} {members : Members} {items : List Json} {components : List Ty} :
      Members.get? typeName members = some (.str (tupleName ++ suffixes sizes)) →
      Members.get? componentsName members = some (.arr items) → RepresentAll items components →
      Represents sizes (.obj members) (.tuple components)
  | array {sizes : List ArraySize} {parameter : Json} {item : Ty} {size : ArraySize} :
      Represents (size :: sizes) parameter item → Represents sizes parameter (.array item size)

/-- Parameters represent types, in order. -/
inductive RepresentAll : List Json → List Ty → Prop
  | nil : RepresentAll [] []
  | cons {parameter : Json} {rest : List Json} {t : Ty} {types : List Ty} : Represents [] parameter t →
      RepresentAll rest types → RepresentAll (parameter :: rest) (t :: types)

end

/-- An entry takes inputs of these types. Inputs that are missing or null are none. -/
inductive Takes (entry : Entry) : List Ty → Prop
  | missing : Members.get? inputsName entry = none → Takes entry []
  | null : Members.get? inputsName entry = some .null → Takes entry []
  | listed {items : List Json} {types : List Ty} : Members.get? inputsName entry = some (.arr items) →
      RepresentAll items types → Takes entry types

/-! ## Canonical types -/

/-- A name with sizes of arrays behind it begins as the types of tuples do only if the name does. -/
theorem ElementaryName.isPrefixOf_suffixes (name : ElementaryName) (sizes : List ArraySize) :
    tupleName.isPrefixOf (name.text ++ suffixes sizes) = false := by
  have hname : ¬tupleName <+: name.text := by
    rw [← List.isPrefixOf_iff_prefix, name.apart]
    exact Bool.false_ne_true
  rw [Bool.eq_false_iff, ne_eq, List.isPrefixOf_iff_prefix]
  intro hprefix
  rcases List.prefix_or_prefix_of_prefix hprefix (List.prefix_append _ _) with h | ⟨rest, hrest⟩
  · exact hname h
  -- the name is a front of `tuple`, and the bracket of the first size does not go on with it
  rw [← hrest, List.prefix_append_right_inj] at hprefix
  cases rest with
  | nil =>
    rw [List.append_nil] at hrest
    exact hname (hrest ▸ List.prefix_refl name.text)
  | cons p rest =>
    cases sizes with
    | nil => simp at hprefix
    | cons size sizes =>
      have hbracket : p = .char '[' := by
        rw [suffixes_cons, ArraySize.text, List.cons_append, List.cons_append, List.cons_prefix_cons] at hprefix
        exact hprefix.1
      have hmem : p ∈ tupleName := hrest ▸ List.mem_append_right _ List.mem_cons_self
      rw [hbracket] at hmem
      exact absurd hmem (by decide)

theorem namedType_of_get? {members : Members} {t : Text} (h : Members.get? typeName members = some (.str t)) :
    namedType members = t := by
  rw [namedType, h]
  rfl

theorem componentTypes_of_get? {members : Members} {components : Json}
    (h : Members.get? componentsName members = some components) :
    componentTypes members = parameterTypes components := by
  induction members with
  | nil => cases h
  | cons head rest ih =>
    obtain ⟨key, value⟩ := head
    rw [Members.get?] at h
    rw [componentTypes]
    split at h
    · cases h
      rw [if_pos ‹_›]
    · rw [if_neg ‹_›]
      exact ih h

/-- The canonical texts of types, between parentheses. -/
theorem parenthesised_canonical (types : List Ty) :
    parenthesised (types.map Ty.canonical) = .char '(' :: Ty.listed types ++ [.char ')'] := by
  have hmore : ∀ (t : Ty) (rest : List Ty),
      Text.join comma ((t :: rest).map Ty.canonical) = t.canonical ++ Ty.listedMore rest := by
    intro t rest
    induction rest generalizing t with
    | nil => rw [List.map_singleton, Text.join, Ty.listedMore, List.append_nil]
    | cons u rest ih =>
      rw [List.map_cons, List.map_cons, Text.join, ← List.map_cons, ih u, Ty.listedMore]
      simp [comma]
  cases types with
  | nil => rfl
  | cons t rest => rw [parenthesised, hmore, Ty.listed]

mutual

/-- A parameter has the canonical text of the type that it represents. -/
theorem Represents.canonicalType {sizes : List ArraySize} {parameter : Json} {t : Ty}
    (h : Represents sizes parameter t) : canonicalType parameter = .ok (t.canonical ++ suffixes sizes) := by
  match h with
  | @Represents.elementary _ _ name htype =>
    rw [Abi.canonicalType, namedType_of_get? htype, name.isPrefixOf_suffixes, if_neg Bool.false_ne_true, Ty.canonical]
  | .tuple htype hcomponents hitems =>
    have hprefix : tupleName.isPrefixOf (tupleName ++ suffixes sizes) = true :=
      List.isPrefixOf_iff_prefix.mpr (List.prefix_append _ _)
    have htypes := hitems.itemTypes
    rw [Abi.canonicalType, namedType_of_get? htype, if_pos hprefix, componentTypes_of_get? hcomponents, parameterTypes,
      htypes]
    simp only [parenthesised_canonical, List.drop_left, Ty.canonical]
  | @Represents.array _ _ _ size hitem =>
    rw [hitem.canonicalType, Ty.canonical, suffixes_cons, List.append_assoc]

/-- Parameters have the canonical texts of the types that they represent. -/
theorem RepresentAll.itemTypes {items : List Json} {types : List Ty} (h : RepresentAll items types) :
    itemTypes items = .ok (types.map Ty.canonical) := by
  match h with
  | .nil => rfl
  | .cons hfirst hrest =>
    have htype := hfirst.canonicalType
    rw [suffixes_nil, List.append_nil] at htype
    rw [Abi.itemTypes, htype, hrest.itemTypes]
    rfl

end

/-- The inputs of an entry have the canonical texts of the types that it takes. -/
theorem Takes.inputTypes {entry : Entry} {types : List Ty} (h : Takes entry types) :
    inputTypes entry = .ok (types.map Ty.canonical) := by
  cases h with
  | missing hget =>
    simp only [Abi.inputTypes, hget, List.map_nil]
  | null hget =>
    simp [Abi.inputTypes, hget, Json.isEmpty]
  | listed hget hall =>
    simp only [Abi.inputTypes, hget, Json.isEmpty, parameterTypes]
    cases hall with
    | nil => rfl
    | cons hfirst hrest => exact (RepresentAll.cons hfirst hrest).itemTypes

/-! ## Signatures -/

/-- A signature is put together from the name of the entry and the canonical types of its inputs. -/
theorem signature_of_inputTypes {entry : Entry} {name : Text} {types : List Ty}
    (hname : Members.get? nameName entry = some (.str name))
    (hinputs : inputTypes entry = .ok (types.map Ty.canonical)) :
    signature entry = .ok (name ++ (.char '(' :: Ty.listed types ++ [.char ')'])) := by
  have hentry : entryName entry = name := by
    rw [entryName, hname]
    rfl
  simp only [signature, hinputs, hentry, parenthesised_canonical]

/-- The signature of an entry is its name and, between parentheses, the canonical texts of the types that it takes. No
other member of the entry or of its parameters plays a part. -/
theorem signature_of_takes {entry : Entry} {name : Text} {types : List Ty}
    (hname : Members.get? nameName entry = some (.str name)) (htypes : Takes entry types) :
    signature entry = .ok (name ++ (.char '(' :: Ty.listed types ++ [.char ')'])) :=
  signature_of_inputTypes hname htypes.inputTypes

/-- The type of truth values. -/
def boolType : Ty := .elementary ⟨Text.ofString "bool", by decide⟩

/-- Members with names and values of these. -/
def membersOf (members : List (String × Json)) : Members := members.map fun (key, value) => (Text.ofString key, value)

/-- A text as a value. -/
def textValue (s : String) : Json := .str (Text.ofString s)

/-- The members of a function that takes lists of pairs of tuples; one component of the tuples is an empty tuple. -/
def submission : Entry :=
  membersOf
    [("outputs", .arr [textValue "bool"]), ("name", textValue "submit"),
      ("inputs", .arr
        [.obj (membersOf
          [("components", .arr
              [.obj (membersOf [("name", .null), ("type", textValue "address")]),
                .obj (membersOf [("type", textValue "tuple"), ("components", .arr [])]),
                .obj (membersOf [("type", textValue "uint256[]"), ("indexed", .bool true)])]),
            ("type", textValue "tuple[2][]")]),
          .obj (membersOf [("internalType", textValue "tuple"), ("type", textValue "bytes32")])]),
      ("stateMutability", .int 3)]

/-- The types that the function takes. -/
def submissionTypes : List Ty :=
  [.array (.array
      (.tuple
        [.elementary ⟨Text.ofString "address", by decide⟩, .tuple [],
          .array (.elementary ⟨Text.ofString "uint256", by decide⟩) ⟨[]⟩]) ⟨[2]⟩) ⟨[]⟩,
    .elementary ⟨Text.ofString "bytes32", by decide⟩]

theorem takes_submission : Takes submission submissionTypes := by
  refine .listed rfl (.cons (.array (.array (.tuple rfl rfl ?_))) (.cons (.elementary rfl) .nil))
  exact .cons (.elementary rfl) (.cons (.tuple rfl rfl .nil) (.cons (.array (.elementary rfl)) .nil))

theorem signature_of_takes_submission :
    Takes submission submissionTypes ∧
      signature submission = .ok (Text.ofString "submit((address,(),uint256[])[2][],bytes32)") :=
  ⟨takes_submission, signature_of_takes rfl takes_submission⟩

end Redeclare.Abi

import Redeclare.Abi.Signature
import Redeclare.Proofs.Printed

/-!
# Entries without a signature

An entry has no signature exactly when, at some depth, a value that should list parameters lists nothing: the inputs, or
the components of a parameter whose type is a tuple. A signature that there is holds no lone surrogate that is not in
the entry, since everything but its texts is shown with escapes.
-/

namespace Redeclare.Abi

/-- A value that should list parameters and lists nothing, or lists a tuple whose components are such a value. -/
inductive Malformed : Json → Prop
  | null : Malformed .null
  | bool (b : Bool) : Malformed (.bool b)
  | int (n : Int) : Malformed (.int n)
  | double (x : Double) : Malformed (.double x)
  | tuple {items : List Json} {members : Members} {components : Json} : .obj members ∈ items →
      tupleName.isPrefixOf (namedType members) = true → Members.get? componentsName members = some components →
      Malformed components → Malformed (.arr items)

/-- A parameter that has no canonical type: a tuple whose components list nothing. -/
def MalformedParameter : Json → Prop
  | .obj members => tupleName.isPrefixOf (namedType members) = true ∧
      ∃ components, Members.get? componentsName members = some components ∧ Malformed components
  | _ => False

theorem malformed_arr {items : List Json} : Malformed (.arr items) ↔ ∃ item ∈ items, MalformedParameter item := by
  constructor
  · rintro (_ | _ | _ | _ | ⟨hmem, htuple, hget, hbad⟩)
    exact ⟨_, hmem, htuple, _, hget, hbad⟩
  · rintro ⟨item, hmem, hbad⟩
    cases item with
    | obj members =>
      obtain ⟨htuple, components, hget, hcomponents⟩ := hbad
      exact .tuple hmem htuple hget hcomponents
    | _ => cases hbad

theorem not_malformed_obj {members : Members} : ¬Malformed (.obj members) := by
  intro h
  cases h

theorem not_malformed_str {t : Text} : ¬Malformed (.str t) := by
  intro h
  cases h

/-! ## When there is no signature -/

mutual

/-- A parameter has a canonical type unless it is malformed. -/
theorem canonicalType_error_iff (v : Json) : (∃ e, canonicalType v = .error e) ↔ MalformedParameter v := by
  match v with
  | .obj members =>
    have hcomponents := componentTypes_error_iff members
    rw [canonicalType, MalformedParameter, ← hcomponents]
    by_cases htuple : tupleName.isPrefixOf (namedType members) = true
    · rw [if_pos htuple]
      cases componentTypes members <;> simp [htuple]
    · rw [if_neg htuple]
      simp [htuple]
  | .null | .bool _ | .int _ | .double _ | .str _ | .arr _ => simp [canonicalType, MalformedParameter]

/-- A value lists parameters with canonical types unless it is malformed. -/
theorem parameterTypes_error_iff (v : Json) : (∃ e, parameterTypes v = .error e) ↔ Malformed v := by
  match v with
  | .arr items => rw [parameterTypes, itemTypes_error_iff items, malformed_arr]
  | .obj members => simp [parameterTypes, not_malformed_obj]
  | .str t => simp [parameterTypes, not_malformed_str]
  | .null => simp [parameterTypes, Malformed.null]
  | .bool b => simp [parameterTypes, Malformed.bool]
  | .int n => simp [parameterTypes, Malformed.int]
  | .double x => simp [parameterTypes, Malformed.double]

theorem itemTypes_error_iff (items : List Json) :
    (∃ e, itemTypes items = .error e) ↔ ∃ item ∈ items, MalformedParameter item := by
  match items with
  | [] => simp [itemTypes]
  | item :: rest =>
    have hitem := canonicalType_error_iff item
    have hrest := itemTypes_error_iff rest
    simp only [List.mem_cons, exists_eq_or_imp]
    rw [← hitem, ← hrest, itemTypes]
    cases canonicalType item with
    | error e => simp
    | ok type => cases itemTypes rest <;> simp

theorem componentTypes_error_iff (members : List (Text × Json)) :
    (∃ e, componentTypes members = .error e) ↔
      ∃ components, Members.get? componentsName members = some components ∧ Malformed components := by
  match members with
  | [] => simp [componentTypes, Members.get?]
  | (key, value) :: rest =>
    rw [componentTypes, Members.get?]
    by_cases hkey : key = componentsName
    · rw [if_pos hkey, if_pos hkey, parameterTypes_error_iff value]
      simp
    · rw [if_neg hkey, if_neg hkey]
      exact componentTypes_error_iff rest

end

/-- The inputs of an entry count as something and are malformed. -/
def MalformedInputs (entry : Entry) : Prop :=
  ∃ inputs, Members.get? inputsName entry = some inputs ∧ inputs.isEmpty = false ∧ Malformed inputs

/-- An entry has a signature unless its inputs are malformed. -/
theorem signature_error_iff (entry : Entry) : (∃ e, signature entry = .error e) ↔ MalformedInputs entry := by
  have hinputs : (∃ e, inputTypes entry = .error e) ↔ MalformedInputs entry := by
    unfold inputTypes MalformedInputs
    cases Members.get? inputsName entry with
    | none => simp
    | some inputs =>
      cases hempty : inputs.isEmpty with
      | true => simp [hempty]
      | false => simp [hempty, ← parameterTypes_error_iff inputs]
  rw [← hinputs, signature]
  cases inputTypes entry <;> simp

end Redeclare.Abi

namespace Redeclare

/-! ## What is shown holds characters only -/

/-- Lone surrogates are not printable. -/
theorem Point.isPrintable_lone (u : Fin 2048) : (Point.lone u).isPrintable = false := by
  have hrange : (55292, 63743) ∈ unprintableRanges := by decide +kernel
  have hany : unprintableRanges.any (fun r => r.1 ≤ (Point.lone u).code && (Point.lone u).code ≤ r.2) = true := by
    rw [List.any_eq_true]
    refine ⟨_, hrange, ?_⟩
    have hcode : (Point.lone u).code = 0xD800 + u.val := rfl
    simp only [hcode, Bool.and_eq_true, decide_eq_true_eq]
    omega
  rw [isPrintable, hany]
  rfl

namespace Text

theorem lone_not_mem_ofChars (u : Fin 2048) (cs : List Char) : .lone u ∉ ofChars cs := by
  simp [ofChars]

theorem lone_not_mem_ofString (u : Fin 2048) (s : String) : .lone u ∉ ofString s := lone_not_mem_ofChars u s.toList

theorem lone_not_mem_ofInt (u : Fin 2048) (n : Int) : .lone u ∉ ofInt n := (Json.rare_lone u).not_mem_ofInt n

theorem lone_not_mem_quoted (u : Fin 2048) (t : Text) : .lone u ∉ quoted t := by
  have hpoint : ∀ quote p, .lone u ∉ Quoted.point quote p := by
    intro quote p
    unfold Quoted.point
    split
    · exact lone_not_mem_ofString u _
    split
    · rename_i hquote
      simp [hquote]
    split
    · exact lone_not_mem_ofString u _
    split
    · exact lone_not_mem_ofString u _
    split
    · exact lone_not_mem_ofString u _
    split
    · rename_i hprintable
      rw [List.mem_singleton]
      rintro rfl
      rw [Point.isPrintable_lone] at hprintable
      cases hprintable
    · unfold Quoted.escape ofHex
      split
      · simp [lone_not_mem_ofString, lone_not_mem_ofChars]
      · split <;> simp [lone_not_mem_ofString, lone_not_mem_ofChars]
  simp [quoted, hpoint]

theorem mem_join {p : Point} {separator : Text} {ts : List Text} (h : p ∈ join separator ts) :
    p ∈ separator ∨ ∃ t ∈ ts, p ∈ t := by
  induction ts with
  | nil => cases h
  | cons t rest ih =>
    cases rest with
    | nil => exact .inr ⟨t, List.mem_cons_self, h⟩
    | cons u more =>
      rw [join, List.mem_append, List.mem_append] at h
      rcases h with (h | h) | h
      · exact .inr ⟨t, List.mem_cons_self, h⟩
      · exact .inl h
      · rcases ih h with h | ⟨s, hs, h⟩
        · exact .inl h
        · exact .inr ⟨s, List.mem_cons_of_mem t hs, h⟩

end Text

namespace Json

section
variable {u : Fin 2048}

mutual

theorem lone_not_mem_shown (v : Json) : .lone u ∉ shown v := by
  match v with
  | .null | .bool true | .bool false | .arr [] => exact Text.lone_not_mem_ofString u _
  | .obj [] => exact Text.lone_not_mem_ofChars u _
  | .int n => exact Text.lone_not_mem_ofInt u n
  | .double x => exact Text.lone_not_mem_ofChars u _
  | .str t => exact Text.lone_not_mem_quoted u t
  | .arr (item :: rest) => simp [shown, lone_not_mem_shown item, lone_not_mem_shownItems rest]
  | .obj ((key, value) :: rest) =>
    simp [shown, lone_not_mem_shown value, lone_not_mem_shownMembers rest, Text.lone_not_mem_quoted,
      Text.lone_not_mem_ofString]

theorem lone_not_mem_shownItems (items : List Json) : .lone u ∉ shownItems items := by
  match items with
  | [] => exact List.not_mem_nil
  | item :: rest => simp [shownItems, lone_not_mem_shown item, lone_not_mem_shownItems rest, Text.lone_not_mem_ofString]

theorem lone_not_mem_shownMembers (members : List (Text × Json)) : .lone u ∉ shownMembers members := by
  match members with
  | [] => exact List.not_mem_nil
  | (key, value) :: rest =>
    simp [shownMembers, lone_not_mem_shown value, lone_not_mem_shownMembers rest, Text.lone_not_mem_quoted,
      Text.lone_not_mem_ofString]

end

/-- A lone surrogate in the form of a value in a message is one of its text. -/
theorem mentionedIn_of_display {v : Json} (h : .lone u ∈ v.display) : MentionedIn (.lone u) v.values := by
  cases v with
  | str t => exact ⟨.str t, self_mem_values _, h⟩
  | _ => exact absurd h (lone_not_mem_shown _)

/-- What a member mentions the members mention. -/
theorem mentionedIn_of_get? {p : Point} {name : Text} {value : Json} {members : Members}
    (hget : Members.get? name members = some value) (h : MentionedIn p value.values) :
    MentionedIn p (memberValues members) := by
  induction members with
  | nil => cases hget
  | cons head rest ih =>
    obtain ⟨key, old⟩ := head
    rw [Members.get?] at hget
    rw [memberValues, mentionedIn_append]
    split at hget
    · cases hget
      exact .inl h
    · exact .inr (ih hget)

end

end Json

namespace Abi

/-! ## What a signature holds -/

section
variable {u : Fin 2048}

theorem mentionedIn_of_namedType {members : Members} (h : .lone u ∈ namedType members) :
    Json.MentionedIn (.lone u) (Json.memberValues members) := by
  unfold namedType at h
  split at h
  · rename_i value hget
    exact Json.mentionedIn_of_get? hget (Json.mentionedIn_of_display h)
  · cases h

theorem lone_mem_parenthesised {types : List Text} (h : .lone u ∈ parenthesised types) : ∃ t ∈ types, .lone u ∈ t := by
  simp only [parenthesised, List.mem_append, List.mem_cons, reduceCtorEq, false_or, List.not_mem_nil, or_false] at h
  rcases Text.mem_join h with h | h
  · simp [comma] at h
  · exact h

mutual

/-- A lone surrogate in a canonical type is one of the parameter. -/
theorem mentionedIn_of_canonicalType {v : Json} {type : Text} (h : canonicalType v = .ok type) (hu : .lone u ∈ type) :
    Json.MentionedIn (.lone u) v.values := by
  match v with
  | .obj members =>
    rw [Json.values, Json.mentionedIn_cons]
    refine .inr ?_
    rw [canonicalType] at h
    split at h
    · split at h
      · rename_i types htypes
        cases h
        rcases List.mem_append.mp hu with hu | hu
        · obtain ⟨t, ht, hu⟩ := lone_mem_parenthesised hu
          exact mentionedIn_of_componentTypes htypes ht hu
        · exact mentionedIn_of_namedType (List.mem_of_mem_drop hu)
      · cases h
    · cases h
      exact mentionedIn_of_namedType hu
  | .null | .bool _ | .int _ | .double _ | .str _ | .arr _ =>
    cases h
    exact Json.mentionedIn_of_display hu

/-- A lone surrogate in the canonical type of a parameter is one of the value that lists the parameter. -/
theorem mentionedIn_of_parameterTypes {v : Json} {types : List Text} {type : Text} (h : parameterTypes v = .ok types)
    (htype : type ∈ types) (hu : .lone u ∈ type) : Json.MentionedIn (.lone u) v.values := by
  match v with
  | .arr items =>
    rw [Json.values, Json.mentionedIn_cons]
    exact .inr (mentionedIn_of_itemTypes h htype hu)
  | .obj members =>
    cases h
    obtain ⟨m, hm, rfl⟩ := List.mem_map.mp htype
    exact ⟨.obj members, Json.self_mem_values _, m, hm, hu⟩
  | .str t =>
    cases h
    obtain ⟨p, hp, rfl⟩ := List.mem_map.mp htype
    rw [List.mem_singleton] at hu
    exact ⟨.str t, Json.self_mem_values _, hu ▸ hp⟩
  | .null | .bool _ | .int _ | .double _ => cases h

theorem mentionedIn_of_itemTypes {items : List Json} {types : List Text} {type : Text} (h : itemTypes items = .ok types)
    (htype : type ∈ types) (hu : .lone u ∈ type) : Json.MentionedIn (.lone u) (Json.itemValues items) := by
  match items with
  | [] =>
    cases h
    cases htype
  | item :: rest =>
    rw [itemTypes] at h
    rw [Json.itemValues, Json.mentionedIn_append]
    split at h
    · cases h
    · rename_i first hfirst
      split at h
      · cases h
      · rename_i more hmore
        cases h
        rcases List.mem_cons.mp htype with rfl | htype
        · exact .inl (mentionedIn_of_canonicalType hfirst hu)
        · exact .inr (mentionedIn_of_itemTypes hmore htype hu)

theorem mentionedIn_of_componentTypes {members : List (Text × Json)} {types : List Text} {type : Text}
    (h : componentTypes members = .ok types) (htype : type ∈ types) (hu : .lone u ∈ type) :
    Json.MentionedIn (.lone u) (Json.memberValues members) := by
  match members with
  | [] =>
    cases h
    cases htype
  | (key, value) :: rest =>
    rw [componentTypes] at h
    rw [Json.memberValues, Json.mentionedIn_append]
    split at h
    · exact .inl (mentionedIn_of_parameterTypes h htype hu)
    · exact .inr (mentionedIn_of_componentTypes h htype hu)

end

/-- A lone surrogate in the signature of an entry is one of the entry. -/
theorem mentionedIn_of_signature {entry : Entry} {t : Text} (h : signature entry = .ok t) (hu : .lone u ∈ t) :
    Json.MentionedIn (.lone u) (Json.obj entry).values := by
  rw [Json.values, Json.mentionedIn_cons]
  refine .inr ?_
  unfold signature at h
  split at h
  · rename_i types htypes
    cases h
    rcases List.mem_append.mp hu with hu | hu
    · unfold entryName at hu
      split at hu
      · rename_i value hget
        exact Json.mentionedIn_of_get? hget (Json.mentionedIn_of_display hu)
      · cases hu
    · obtain ⟨type, htype, hu⟩ := lone_mem_parenthesised hu
      unfold inputTypes at htypes
      split at htypes
      · cases htypes
        cases htype
      · rename_i inputs hget
        split at htypes
        · cases htypes
          cases htype
        · exact Json.mentionedIn_of_get? hget (mentionedIn_of_parameterTypes htypes htype hu)
  · cases h

end

end Abi

end Redeclare

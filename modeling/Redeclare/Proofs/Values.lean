import Redeclare.Json.Printer
import Redeclare.Proofs.Digits

/-!
# The values in a document

A document with all values inside it, in the order in which they stand in its text. What a document is asked for is
asked of each of these values. Whatever is read has distinct names in each object and no whole number of more digits
than may be read.
-/

namespace Redeclare.Json

mutual

/-- A value and all values inside it, in the order of their text. -/
def values : Json → List Json
  | .arr items => .arr items :: itemValues items
  | .obj members => .obj members :: memberValues members
  | .null => [.null]
  | .bool b => [.bool b]
  | .int n => [.int n]
  | .double x => [.double x]
  | .str t => [.str t]

/-- The values of the items of an array. -/
def itemValues : List Json → List Json
  | [] => []
  | item :: rest => values item ++ itemValues rest

/-- The values of the members of an object. -/
def memberValues : List (Text × Json) → List Json
  | [] => []
  | (_, value) :: rest => values value ++ memberValues rest

end

/-- Every value in a value, itself included, satisfies `p`. -/
def All (p : Json → Prop) (v : Json) : Prop := ∀ w ∈ v.values, p w

section
variable {p q : Json → Prop} {v : Json} {items : List Json} {members : Members}

theorem self_mem_values (v : Json) : v ∈ v.values := by
  cases v <;> simp [values]

theorem mem_itemValues {w : Json} : w ∈ itemValues items ↔ ∃ item ∈ items, w ∈ item.values := by
  induction items with
  | nil => simp [itemValues]
  | cons item rest ih => simp [itemValues, ih]

theorem mem_memberValues {w : Json} : w ∈ memberValues members ↔ ∃ m ∈ members, w ∈ m.2.values := by
  induction members with
  | nil => simp [memberValues]
  | cons m rest ih =>
    obtain ⟨key, value⟩ := m
    simp [memberValues, ih]

theorem all_arr : (Json.arr items).All p ↔ p (.arr items) ∧ ∀ item ∈ items, item.All p := by
  simp only [All, values, List.mem_cons, forall_eq_or_imp, mem_itemValues, forall_exists_index, and_imp]
  refine and_congr_right fun _ => ⟨?_, ?_⟩
  · intro h item hi w
    exact h w item hi
  · intro h w item hi
    exact h item hi w

theorem all_obj : (Json.obj members).All p ↔ p (.obj members) ∧ ∀ m ∈ members, m.2.All p := by
  simp only [All, values, List.mem_cons, forall_eq_or_imp, mem_memberValues, forall_exists_index, and_imp]
  refine and_congr_right fun _ => ⟨?_, ?_⟩
  · intro h m hm w
    exact h w m hm
  · intro h w m hm
    exact h m hm w

theorem All.self (h : v.All p) : p v := h v v.self_mem_values

theorem all_str {t : Text} : (Json.str t).All p ↔ p (.str t) := by
  simp [All, values]

theorem all_and : v.All (fun w => p w ∧ q w) ↔ v.All p ∧ v.All q := by
  simp only [All, forall_and]

end

/-! ## What documents are asked for -/

/-- The members of an object have distinct names. -/
def DistinctNames : Json → Prop
  | .obj members => (members.map (·.1)).Nodup
  | _ => True

/-- A whole number has no more digits than may be read. -/
def ShortWhole : Json → Prop
  | .int n => (Nat.toDigits 10 n.natAbs).length ≤ maxDigits
  | _ => True

/-- A double is a number and not infinite. -/
def FiniteDouble : Json → Prop
  | .double x => x.IsFinite
  | _ => True

instance : DecidablePred FiniteDouble
  | .double x => inferInstanceAs (Decidable x.IsFinite)
  | .null | .bool _ | .int _ | .str _ | .arr _ | .obj _ => isTrue trivial

/-- A text, or the name of a member, holds characters only. -/
def NoLoneSurrogate : Json → Prop
  | .str t => ∀ u, .lone u ∉ t
  | .obj members => ∀ m ∈ members, ∀ u, .lone u ∉ m.1
  | _ => True

mutual

/-- A document has a text when its whole numbers are not too long. -/
theorem hasLongWhole_eq_false_iff (v : Json) : v.hasLongWhole = false ↔ v.All ShortWhole := by
  match v with
  | .arr items =>
    rw [hasLongWhole, itemsHaveLongWhole_eq_false_iff items, all_arr]
    exact (and_iff_right (show ShortWhole (.arr items) from trivial)).symm
  | .obj members =>
    rw [hasLongWhole, membersHaveLongWhole_eq_false_iff members, all_obj]
    exact (and_iff_right (show ShortWhole (.obj members) from trivial)).symm
  | .int n => simp [hasLongWhole, All, values, ShortWhole]
  | .null | .bool _ | .double _ | .str _ => simp [hasLongWhole, All, values, ShortWhole]

theorem itemsHaveLongWhole_eq_false_iff (items : List Json) :
    itemsHaveLongWhole items = false ↔ ∀ item ∈ items, item.All ShortWhole := by
  match items with
  | [] => simp [itemsHaveLongWhole]
  | item :: rest =>
    rw [itemsHaveLongWhole, Bool.or_eq_false_iff, hasLongWhole_eq_false_iff item,
      itemsHaveLongWhole_eq_false_iff rest, List.forall_mem_cons]

theorem membersHaveLongWhole_eq_false_iff (members : List (Text × Json)) :
    membersHaveLongWhole members = false ↔ ∀ m ∈ members, m.2.All ShortWhole := by
  match members with
  | [] => simp [membersHaveLongWhole]
  | (key, value) :: rest =>
    rw [membersHaveLongWhole, Bool.or_eq_false_iff, hasLongWhole_eq_false_iff value,
      membersHaveLongWhole_eq_false_iff rest, List.forall_mem_cons]

end

/-- What every document that was read is: distinct names in each object, and no whole number that is too long. -/
def Readable (v : Json) : Prop := v.All fun w => DistinctNames w ∧ ShortWhole w

/-- All doubles in a document are finite. -/
def Finite (v : Json) : Prop := v.All FiniteDouble

instance (v : Json) : Decidable v.Finite := inferInstanceAs (Decidable (∀ w ∈ v.values, FiniteDouble w))

/-- A document that can be written and read back: distinct names, whole numbers that are not too long, finite doubles,
and no lone surrogate. -/
structure Plain (v : Json) : Prop where
  names : v.All DistinctNames
  wholes : v.All ShortWhole
  finite : v.Finite
  characters : v.All NoLoneSurrogate

theorem Plain.readable {v : Json} (h : v.Plain) : v.Readable := all_and.mpr ⟨h.names, h.wholes⟩

theorem plain_obj {members : Members} (hnames : (members.map (·.1)).Nodup)
    (hcharacters : ∀ m ∈ members, ∀ u, .lone u ∉ m.1) (h : ∀ m ∈ members, m.2.Plain) : (Json.obj members).Plain where
  names := all_obj.mpr ⟨hnames, fun m hm => (h m hm).names⟩
  wholes := all_obj.mpr ⟨trivial, fun m hm => (h m hm).wholes⟩
  finite := all_obj.mpr ⟨trivial, fun m hm => (h m hm).finite⟩
  characters := all_obj.mpr ⟨hcharacters, fun m hm => (h m hm).characters⟩

/-- What was read can be written. -/
theorem Readable.hasLongWhole_eq_false {v : Json} (h : v.Readable) : v.hasLongWhole = false :=
  v.hasLongWhole_eq_false_iff.mpr (all_and.mp h).2

end Redeclare.Json

namespace Redeclare.Members

/-! ## Putting a member -/

theorem mem_put {name : Text} {value : Json} {members : Members} {m : Text × Json}
    (h : m ∈ put name value members) : m ∈ members ∨ m.1 = name ∧ m.2 = value := by
  induction members with
  | nil =>
    rw [put, List.mem_singleton] at h
    exact .inr ⟨congrArg Prod.fst h, congrArg Prod.snd h⟩
  | cons head rest ih =>
    obtain ⟨key, old⟩ := head
    rw [put] at h
    split at h
    · rename_i hkey
      rcases List.mem_cons.mp h with rfl | h
      · exact .inr ⟨hkey, rfl⟩
      · exact .inl (List.mem_cons_of_mem _ h)
    · rcases List.mem_cons.mp h with rfl | h
      · exact .inl List.mem_cons_self
      · exact (ih h).imp_left (List.mem_cons_of_mem _)

/-- The names stay, and a new one comes last. -/
theorem names_put (name : Text) (value : Json) (members : Members) :
    (put name value members).map (·.1) =
      if name ∈ members.map (·.1) then members.map (·.1) else members.map (·.1) ++ [name] := by
  induction members with
  | nil => rfl
  | cons head rest ih =>
    obtain ⟨key, old⟩ := head
    rw [put]
    by_cases hkey : key = name
    · simp [hkey]
    · have hne : name ≠ key := Ne.symm hkey
      rw [if_neg hkey, List.map_cons, ih]
      by_cases hmem : name ∈ rest.map (·.1)
      · simp only [List.map_cons, List.mem_cons, hmem, or_true, if_true]
      · simp only [List.map_cons, List.mem_cons, hmem, hne, or_self, if_false, List.cons_append]

theorem nodup_put {name : Text} {value : Json} {members : Members} (h : (members.map (·.1)).Nodup) :
    ((put name value members).map (·.1)).Nodup := by
  rw [names_put]
  split
  · exact h
  · rename_i hnew
    rw [List.nodup_append]
    refine ⟨h, by simp, ?_⟩
    intro a ha b hb
    rw [List.mem_singleton] at hb
    rintro rfl
    exact hnew (hb ▸ ha)

theorem put_of_not_mem {name : Text} {value : Json} {members : Members} (h : name ∉ members.map (·.1)) :
    put name value members = members ++ [(name, value)] := by
  induction members with
  | nil => rfl
  | cons head rest ih =>
    obtain ⟨key, old⟩ := head
    rw [List.map_cons, List.mem_cons, not_or] at h
    rw [put, if_neg (fun hk => h.1 hk.symm), ih h.2, List.cons_append]

/-- A member is put at its place behind members of other names. -/
theorem put_append {name : Text} {before : Members} (h : name ∉ before.map (·.1)) (value old : Json) (after : Members) :
    put name value (before ++ (name, old) :: after) = before ++ (name, value) :: after := by
  induction before with
  | nil => rw [List.nil_append, put, if_pos rfl, List.nil_append]
  | cons m rest ih =>
    rw [List.map_cons, List.mem_cons, not_or] at h
    rw [List.cons_append, put, if_neg (fun heq => h.1 heq.symm), ih h.2, List.cons_append]

/-! ## Looking up a member -/

theorem mem_of_get? {name : Text} {value : Json} {members : Members} (h : get? name members = some value) :
    (name, value) ∈ members := by
  induction members with
  | nil => cases h
  | cons head rest ih =>
    obtain ⟨key, old⟩ := head
    rw [get?] at h
    split at h
    · rename_i hkey
      cases h
      rw [hkey]
      exact List.mem_cons_self
    · exact List.mem_cons_of_mem _ (ih h)

/-- A member that is found stands behind members of other names. -/
theorem exists_append_of_get? {name : Text} {value : Json} {members : Members}
    (h : get? name members = some value) :
    ∃ before after, members = before ++ (name, value) :: after ∧ name ∉ before.map (·.1) := by
  induction members with
  | nil => cases h
  | cons m rest ih =>
    obtain ⟨key, old⟩ := m
    rw [get?] at h
    split at h
    · rename_i hkey
      cases h
      exact ⟨[], rest, by rw [hkey, List.nil_append], List.not_mem_nil⟩
    · rename_i hkey
      obtain ⟨before, after, rfl, hnew⟩ := ih h
      refine ⟨(key, old) :: before, after, rfl, ?_⟩
      rw [List.map_cons, List.mem_cons, not_or]
      exact ⟨fun heq => hkey heq.symm, hnew⟩

/-- No member has a name that is not found. -/
theorem not_mem_of_get? {name : Text} {members : Members} (h : get? name members = none) :
    name ∉ members.map (·.1) := by
  induction members with
  | nil => exact List.not_mem_nil
  | cons m rest ih =>
    obtain ⟨key, old⟩ := m
    rw [get?] at h
    split at h
    · cases h
    · rename_i hkey
      rw [List.map_cons, List.mem_cons, not_or]
      exact ⟨fun heq => hkey heq.symm, ih h⟩

theorem get?_put_self (name : Text) (value : Json) (members : Members) :
    get? name (put name value members) = some value := by
  induction members with
  | nil => simp [put, get?]
  | cons head rest ih =>
    obtain ⟨key, old⟩ := head
    by_cases hkey : key = name
    · simp [put, get?, hkey]
    · simp [put, get?, hkey, ih]

theorem get?_put_of_ne {name other : Text} (h : other ≠ name) (value : Json) (members : Members) :
    get? other (put name value members) = get? other members := by
  induction members with
  | nil => simp [put, get?, h.symm]
  | cons head rest ih =>
    obtain ⟨key, old⟩ := head
    by_cases hkey : key = name
    · subst hkey
      simp [put, get?, h.symm]
    · simp [put, get?, hkey, ih]

theorem put_put (name : Text) (value value' : Json) (members : Members) :
    put name value' (put name value members) = put name value' members := by
  induction members with
  | nil => simp [put]
  | cons head rest ih =>
    obtain ⟨key, old⟩ := head
    by_cases hkey : key = name
    · simp [put, hkey]
    · simp [put, hkey, ih]

/-- Putting the value that is there changes nothing. -/
theorem put_of_get? {name : Text} {value : Json} {members : Members} (h : get? name members = some value) :
    put name value members = members := by
  induction members with
  | nil => cases h
  | cons head rest ih =>
    obtain ⟨key, old⟩ := head
    rw [get?] at h
    rw [put]
    split at h
    · rename_i hkey
      cases h
      rw [if_pos hkey]
    · rename_i hkey
      rw [if_neg hkey, ih h]

/-! ## Members that were read -/

/-- Members with distinct names are kept as they were read. -/
theorem ofPairs_of_nodup {members : Members} (h : (members.map (·.1)).Nodup) : ofPairs members = members := by
  suffices hfold : ∀ read : Members, ((read ++ members).map (·.1)).Nodup →
      members.foldl (fun ms m => put m.1 m.2 ms) read = read ++ members by
    exact hfold [] h
  clear h
  induction members with
  | nil =>
    intro read _
    rw [List.foldl_nil, List.append_nil]
  | cons head rest ih =>
    intro read hnodup
    obtain ⟨key, value⟩ := head
    have hnew : key ∉ read.map (·.1) := by
      rw [List.map_append, List.nodup_append] at hnodup
      intro hmem
      exact hnodup.2.2 key hmem key List.mem_cons_self rfl
    have hsplit : read ++ (key, value) :: rest = read ++ [(key, value)] ++ rest := by simp
    show rest.foldl (fun ms m => put m.1 m.2 ms) (put key value read) = read ++ (key, value) :: rest
    rw [put_of_not_mem hnew, hsplit]
    exact ih _ (hsplit ▸ hnodup)

/-- Members that were read have distinct names, whatever the pairs were. -/
theorem nodup_ofPairs (pairs : List (Text × Json)) : ((ofPairs pairs).map (·.1)).Nodup := by
  suffices hfold : ∀ read : Members, (read.map (·.1)).Nodup →
      ((pairs.foldl (fun ms m => put m.1 m.2 ms) read).map (·.1)).Nodup by
    exact hfold [] List.nodup_nil
  induction pairs with
  | nil =>
    intro read h
    exact h
  | cons head rest ih =>
    intro read h
    exact ih _ (nodup_put h)

/-- Members that were read are among the pairs. -/
theorem mem_ofPairs {pairs : List (Text × Json)} {m : Text × Json} (h : m ∈ ofPairs pairs) : m ∈ pairs := by
  suffices hfold : ∀ read : Members,
      ∀ m ∈ pairs.foldl (fun ms m => put m.1 m.2 ms) read, m ∈ read ∨ m ∈ pairs by
    exact (hfold [] m h).resolve_left List.not_mem_nil
  clear h m
  induction pairs with
  | nil =>
    intro read m h
    exact .inl h
  | cons head rest ih =>
    intro read m h
    rcases ih _ m h with h | h
    · rcases mem_put h with h | ⟨h1, h2⟩
      · exact .inl h
      · exact .inr (List.mem_cons.mpr (.inl (Prod.ext h1 h2)))
    · exact .inr (List.mem_cons_of_mem _ h)

end Redeclare.Members

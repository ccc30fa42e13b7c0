import Redeclare.Declaration
import Redeclare.Proofs.Values

/-!
# Changing entries

A document with other entries is the old one but for its member `abi`, and its entries are the new ones. What is asked
of all values of a document is asked of the new one as well when the changed entries satisfy it, so a document that was
read stays one that can be written and read.
-/

namespace Redeclare.Abi

/-! ## The entries of a document -/

theorem objects_map (index : Nat) (entries : List Entry) : objects index (entries.map Json.obj) = .ok entries := by
  induction entries generalizing index with
  | nil => rfl
  | cons entry rest ih => rw [List.map_cons, objects, ih]

theorem eq_map_of_objects {index : Nat} {items : List Json} {entries : List Entry}
    (h : objects index items = .ok entries) : items = entries.map Json.obj := by
  induction items generalizing index entries with
  | nil =>
    cases h
    rfl
  | cons item rest ih =>
    cases item with
    | obj members =>
      rw [objects] at h
      split at h
      · rename_i more hmore
        cases h
        rw [List.map_cons, ih hmore]
      · cases h
    | _ => cases h

/-- A document has entries when it is an object whose member `abi` is an array of objects. -/
theorem entries_eq_ok_iff {document : Json} {es : List Entry} :
    entries document = .ok es ↔
      ∃ members, document = .obj members ∧ Members.get? abiName members = some (.arr (es.map Json.obj)) := by
  constructor
  · intro h
    unfold entries at h
    split at h
    · rename_i members
      split at h
      · cases h
      · rename_i items hget
        exact ⟨members, rfl, by rw [hget, eq_map_of_objects h]⟩
      · cases h
    · cases h
  · rintro ⟨members, rfl, hget⟩
    rw [entries, hget]
    exact objects_map 0 es

variable {document : Json} {es es' es'' : List Entry}

/-- The entries of the new document are the new ones. -/
theorem entries_withEntries (h : entries document = .ok es) : entries (withEntries document es') = .ok es' := by
  obtain ⟨members, rfl, -⟩ := entries_eq_ok_iff.mp h
  exact entries_eq_ok_iff.mpr ⟨_, rfl, Members.get?_put_self _ _ _⟩

/-- A document with other entries has them in the place of its own, and its other members around them. -/
theorem exists_around_entries (h : entries document = .ok es) :
    ∃ front back, abiName ∉ front.map (·.1) ∧ document = .obj (front ++ (abiName, .arr (es.map .obj)) :: back) ∧
      ∀ es', withEntries document es' = .obj (front ++ (abiName, .arr (es'.map .obj)) :: back) := by
  obtain ⟨members, rfl, hget⟩ := entries_eq_ok_iff.mp h
  obtain ⟨front, back, rfl, hfront⟩ := Members.exists_append_of_get? hget
  exact ⟨front, back, hfront, rfl, fun es' => by rw [withEntries, Members.put_append hfront]⟩

/-- A document with its own entries is itself. -/
theorem withEntries_self (h : entries document = .ok es) : withEntries document es = document := by
  obtain ⟨members, rfl, hget⟩ := entries_eq_ok_iff.mp h
  rw [withEntries, Members.put_of_get? hget]

theorem withEntries_withEntries (document : Json) (es es' : List Entry) :
    withEntries (withEntries document es) es' = withEntries document es' := by
  cases document with
  | obj members => simp only [withEntries, Members.put_put]
  | _ => rfl

/-! ## The values of a changed document -/

section
variable {p : Json → Prop}

/-- A condition on single values that putting one of the members of a change keeps and that every array of objects
satisfies. -/
structure Kept (p : Json → Prop) : Prop where
  put : ∀ name ∈ [abiName, mutabilityName], ∀ value members, p (.obj members) →
    p (.obj (Members.put name value members))
  arr : ∀ items, p (.arr items)

/-- The entries of a document satisfy what the whole document does. -/
theorem all_of_entries (h : entries document = .ok es) (hall : document.All p) :
    ∀ entry ∈ es, (Json.obj entry).All p := by
  intro entry hmem
  obtain ⟨members, rfl, hget⟩ := entries_eq_ok_iff.mp h
  have harr := (Json.all_obj.mp hall).2 _ (Members.mem_of_get? hget)
  exact (Json.all_arr.mp harr).2 _ (List.mem_map_of_mem hmem)

/-- A document with other entries satisfies what it did, if the new entries do. -/
theorem all_withEntries (hkept : Kept p) (hall : document.All p) (hes : ∀ entry ∈ es, (Json.obj entry).All p) :
    (withEntries document es).All p := by
  cases document with
  | obj members =>
    rw [Json.all_obj] at hall
    refine Json.all_obj.mpr ⟨hkept.put _ (by simp) _ _ hall.1, ?_⟩
    intro m hm
    rcases Members.mem_put hm with hm | ⟨-, hm⟩
    · exact hall.2 m hm
    · rw [hm]
      refine Json.all_arr.mpr ⟨hkept.arr _, ?_⟩
      intro item hitem
      obtain ⟨entry, hentry, rfl⟩ := List.mem_map.mp hitem
      exact hes entry hentry
  | _ => exact hall

/-- An entry with another member `stateMutability` satisfies what it did, if the new value does. -/
theorem all_put_mutability (hkept : Kept p) {value : Json} {entry : Entry} (hvalue : value.All p)
    (hall : (Json.obj entry).All p) : (Json.obj (Members.put mutabilityName value entry)).All p := by
  rw [Json.all_obj] at hall ⊢
  refine ⟨hkept.put _ (by simp) _ _ hall.1, ?_⟩
  intro m hm
  rcases Members.mem_put hm with hm | ⟨-, hm⟩
  · exact hall.2 m hm
  · rw [hm]
    exact hvalue

/-- Changed entries are among the old ones or are one of them, changed. -/
theorem mem_changeFirst {q : Entry → Bool} {change : Entry → Entry} {entry : Entry}
    (h : entry ∈ changeFirst q change es) : entry ∈ es ∨ ∃ old ∈ es, entry = change old := by
  induction es with
  | nil => cases h
  | cons first rest ih =>
    rw [changeFirst] at h
    split at h
    · rcases List.mem_cons.mp h with rfl | h
      · exact .inr ⟨first, List.mem_cons_self, rfl⟩
      · exact .inl (List.mem_cons_of_mem _ h)
    · rcases List.mem_cons.mp h with rfl | h
      · exact .inl List.mem_cons_self
      · rcases ih h with h | ⟨old, hold, heq⟩
        · exact .inl (List.mem_cons_of_mem _ h)
        · exact .inr ⟨old, List.mem_cons_of_mem _ hold, heq⟩

/-- The first matching entry is changed. -/
theorem mem_changeFirst_of_find? {q : Entry → Bool} {change : Entry → Entry} {entry : Entry}
    (h : es.find? q = some entry) : change entry ∈ changeFirst q change es := by
  induction es with
  | nil => cases h
  | cons first rest ih =>
    rw [List.find?_cons] at h
    rw [changeFirst]
    split at h
    · rename_i hq
      cases h
      rw [if_pos hq]
      exact List.mem_cons_self
    · rename_i hq
      rw [if_neg (by simp [hq])]
      exact List.mem_cons_of_mem _ (ih h)

theorem kept_readable : Kept fun v => Json.DistinctNames v ∧ Json.ShortWhole v := by
  constructor
  · intro name _ value members h
    exact ⟨Members.nodup_put h.1, trivial⟩
  · intro items
    exact ⟨trivial, trivial⟩

theorem kept_finite : Kept Json.FiniteDouble := ⟨fun _ _ _ _ _ => trivial, fun _ => trivial⟩

theorem kept_characters : Kept Json.NoLoneSurrogate := by
  constructor
  · intro name hname value members h m hm
    have hplain : ∀ u, .lone u ∉ name := by
      intro u
      simp only [List.mem_cons, List.not_mem_nil, or_false] at hname
      rcases hname with rfl | rfl
      · simp [abiName, Text.ofString, Text.ofChars]
      · simp [mutabilityName, Text.ofString, Text.ofChars]
    rcases Members.mem_put hm with hm | ⟨hm, -⟩
    · exact h m hm
    · rw [hm]
      exact hplain
  · exact fun _ => trivial

end

/-! ## Changing an entry twice -/

/-- Another mutability leaves which function an entry is for. -/
theorem isFunction_declare (name : Json) (m : Text) (entry : Entry) :
    isFunction name (declare m entry) = isFunction name entry := by
  have htype : typeName ≠ mutabilityName := by decide
  have hname : nameName ≠ mutabilityName := by decide
  rw [isFunction, isFunction, declare, Members.get?_put_of_ne htype, Members.get?_put_of_ne hname]

theorem declare_declare (m : Text) (entry : Entry) : declare m (declare m entry) = declare m entry :=
  Members.put_put mutabilityName (.str m) (.str m) entry

section
variable {q : Entry → Bool} {change : Entry → Entry}

/-- Behind entries that do not satisfy the condition, the first that does is changed. -/
theorem changeFirst_append {entry : Entry} (hes : ∀ e ∈ es, q e = false) (hentry : q entry = true) (es' : List Entry) :
    changeFirst q change (es ++ entry :: es') = es ++ change entry :: es' := by
  induction es with
  | nil => rw [List.nil_append, changeFirst, if_pos hentry, List.nil_append]
  | cons first rest ih =>
    rw [List.cons_append, changeFirst, if_neg (by simp [hes first List.mem_cons_self]),
      ih fun e he => hes e (List.mem_cons_of_mem _ he), List.cons_append]

/-- The first match is the changed one, if it still matches. -/
theorem find?_changeFirst {entry : Entry} (hq : ∀ e, q (change e) = q e) (h : es.find? q = some entry) :
    (changeFirst q change es).find? q = some (change entry) := by
  induction es with
  | nil => cases h
  | cons first rest ih =>
    rw [List.find?_cons] at h
    rw [changeFirst]
    split at h
    · rename_i hfirst
      cases h
      rw [if_pos hfirst, List.find?_cons, hq, hfirst]
    · rename_i hfirst
      rw [if_neg (by simp [hfirst]), List.find?_cons, hfirst]
      exact ih h

/-- The first entry that satisfies a condition which the change keeps stays the first, changed or not. -/
theorem find?_changeFirst_of_some {p : Entry → Bool} {entry : Entry} (hp : ∀ e, p (change e) = p e)
    (h : es.find? p = some entry) :
    (changeFirst q change es).find? p = some entry ∨ (changeFirst q change es).find? p = some (change entry) := by
  induction es with
  | nil => cases h
  | cons first rest ih =>
    rw [changeFirst]
    by_cases hfirst : p first = true
    · rw [List.find?_cons_of_pos hfirst, Option.some.injEq] at h
      subst h
      split
      · exact .inr (List.find?_cons_of_pos ((hp first).trans hfirst))
      · exact .inl (List.find?_cons_of_pos hfirst)
    · rw [List.find?_cons_of_neg hfirst] at h
      split
      · rw [List.find?_cons_of_neg (fun hchanged => hfirst ((hp first).symm.trans hchanged))]
        exact .inl h
      · rw [List.find?_cons_of_neg hfirst]
        exact ih h

/-- If no entry satisfies a condition which the change keeps, none does after it. -/
theorem find?_changeFirst_of_none {p : Entry → Bool} (hp : ∀ e, p (change e) = p e) (h : es.find? p = none) :
    (changeFirst q change es).find? p = none := by
  rw [List.find?_eq_none] at h ⊢
  intro entry hentry
  rcases mem_changeFirst hentry with hentry | ⟨old, hold, rfl⟩
  · exact h entry hentry
  · rw [hp]
    exact h old hold

section
variable {p : Entry → Bool} {change' : Entry → Entry}

/-- The first entry that satisfies a condition which the change keeps is the same, if the change is of another entry. -/
theorem find?_changeFirst_of_apart (hp : ∀ e, p (change e) = p e) (hapart : ∀ e, p e = true → q e = false)
    (es : List Entry) : (changeFirst q change es).find? p = es.find? p := by
  induction es with
  | nil => rfl
  | cons first rest ih =>
    rw [changeFirst]
    by_cases hfirst : p first = true
    · rw [if_neg (by simp [hapart first hfirst]), List.find?_cons_of_pos hfirst, List.find?_cons_of_pos hfirst]
    · rw [List.find?_cons_of_neg hfirst]
      split
      · rw [List.find?_cons_of_neg (by rw [hp]; exact hfirst)]
      · rw [List.find?_cons_of_neg hfirst, ih]

/-- Changes of the first matches of two conditions can be exchanged, if they keep the conditions and no entry satisfies
both. -/
theorem changeFirst_comm (hp : ∀ e, p (change e) = p e) (hq : ∀ e, q (change' e) = q e)
    (hapart : ∀ e, p e = true → q e = false) (es : List Entry) :
    changeFirst p change' (changeFirst q change es) = changeFirst q change (changeFirst p change' es) := by
  induction es with
  | nil => rfl
  | cons first rest ih =>
    by_cases hpfirst : p first = true
    · have hqfirst : q first = false := hapart first hpfirst
      simp [changeFirst, hpfirst, hqfirst, hq]
    · by_cases hqfirst : q first = true
      · simp [changeFirst, hpfirst, hqfirst, hp]
      · simp [changeFirst, hpfirst, hqfirst, ih]

end

/-- Changing the first match again changes nothing more. -/
theorem changeFirst_changeFirst (hq : ∀ e, q (change e) = q e) (hchange : ∀ e, change (change e) = change e)
    (es : List Entry) : changeFirst q change (changeFirst q change es) = changeFirst q change es := by
  induction es with
  | nil => rfl
  | cons first rest ih =>
    by_cases hfirst : q first = true
    · have hagain : q (change first) = true := (hq first).trans hfirst
      simp only [changeFirst, hfirst, hagain, if_true, hchange]
    · simp only [changeFirst, hfirst, if_false, ih, Bool.false_eq_true]

end

end Redeclare.Abi

import Redeclare.Proofs.Repetition

/-!
# Places in documents

A place in a document is the way to it through arrays and objects: at each level what stands before and behind. The
text of a document is the text in front of a place, the text of the value there at the depth of the place, and the text
behind it; the first and the last depend on the place alone. So a document that is written in its layout differs, after
a function was declared anew, in the literal of one mutability and nowhere else, or in the one member that was added.
-/

namespace Redeclare

namespace Json

/-! ## Texts in their layout -/

/-- The text of a value whose own line stands at `depth`. -/
def textAt (depth : Nat) (v : Json) : Text := renderOnto depth [] v

theorem renderOnto_eq (depth : Nat) (after : Text) (v : Json) : renderOnto depth after v = textAt depth v ++ after :=
  renderOnto_append depth [] after v

theorem render_eq (v : Json) : v.render = textAt 0 v := rfl

theorem textAt_str (depth : Nat) (t : Text) : textAt depth (.str t) = literal t := by
  rw [textAt, renderOnto, List.append_nil]

/-- A comma and the start of the next line. -/
def separator (depth : Nat) : Text := .char ',' :: newline depth

/-- The text of a member. -/
def memberText (depth : Nat) (m : Text × Json) : Text := literal m.1 ++ .char ':' :: .char ' ' :: textAt depth m.2

theorem renderItems_eq (depth : Nat) (after : Text) (items : List Json) :
    renderItems depth after items = items.flatMap (fun item => separator depth ++ textAt depth item) ++ after := by
  induction items with
  | nil => rfl
  | cons item rest ih =>
    rw [renderItems, renderOnto_eq, ih, List.flatMap_cons, separator]
    simp

theorem renderMembers_eq (depth : Nat) (after : Text) (members : Members) :
    renderMembers depth after members = members.flatMap (fun m => separator depth ++ memberText depth m) ++ after := by
  induction members with
  | nil => rfl
  | cons m rest ih =>
    obtain ⟨key, value⟩ := m
    rw [renderMembers, renderOnto_eq, ih, List.flatMap_cons, separator, memberText]
    simp

/-- Texts with separators between them: of those that stand in front, each has its separator behind it. -/
theorem separated_append {α : Type} (sep : Text) (text : α → Text) (before : List α) (a : α) (after : List α) :
    ∃ first rest, before ++ a :: after = first :: rest ∧
      text first ++ rest.flatMap (fun b => sep ++ text b) =
        before.flatMap (fun b => text b ++ sep) ++ (text a ++ after.flatMap fun b => sep ++ text b) := by
  induction before with
  | nil => exact ⟨a, after, rfl, rfl⟩
  | cons b before ih =>
    obtain ⟨first, rest, hcons, htext⟩ := ih
    refine ⟨b, first :: rest, by rw [List.cons_append, hcons], ?_⟩
    rw [List.flatMap_cons, List.flatMap_cons, List.append_assoc, List.append_assoc, htext]
    simp

theorem textAt_arr (depth : Nat) (before : List Json) (item : Json) (after : List Json) :
    textAt depth (.arr (before ++ item :: after)) =
      .char '[' :: newline (depth + 1) ++ before.flatMap (fun v => textAt (depth + 1) v ++ separator (depth + 1)) ++
        textAt (depth + 1) item ++
        (after.flatMap (fun v => separator (depth + 1) ++ textAt (depth + 1) v) ++ newline depth ++ [.char ']']) := by
  obtain ⟨first, rest, hcons, htext⟩ :=
    separated_append (separator (depth + 1)) (textAt (depth + 1)) before item after
  rw [hcons, textAt, renderOnto, renderOnto_eq, renderItems_eq, ← List.append_assoc (textAt (depth + 1) first), htext]
  simp

theorem textAt_obj (depth : Nat) (before : Members) (m : Text × Json) (after : Members) :
    textAt depth (.obj (before ++ m :: after)) =
      .char '\x7b' :: newline (depth + 1) ++
        before.flatMap (fun m => memberText (depth + 1) m ++ separator (depth + 1)) ++ memberText (depth + 1) m ++
        (after.flatMap (fun m => separator (depth + 1) ++ memberText (depth + 1) m) ++ newline depth ++
          [.char '\x7d']) := by
  obtain ⟨⟨key, value⟩, rest, hcons, htext⟩ :=
    separated_append (separator (depth + 1)) (memberText (depth + 1)) before m after
  rw [hcons, textAt, renderOnto, renderOnto_eq, renderMembers_eq]
  have hfirst : literal key ++ .char ':' :: .char ' ' :: (textAt (depth + 1) value ++
      (rest.flatMap (fun m => separator (depth + 1) ++ memberText (depth + 1) m) ++
        (newline depth ++ [.char '\x7d']))) =
      memberText (depth + 1) (key, value) ++
          rest.flatMap (fun m => separator (depth + 1) ++ memberText (depth + 1) m) ++
        (newline depth ++ [.char '\x7d']) := by
    simp [memberText]
  rw [hfirst, htext]
  simp

/-! ## Places -/

/-- One step into a document: what stands before and behind an item of an array, or a member of an object. -/
inductive Frame where
  | item (before after : List Json)
  | member (before : Members) (key : Text) (after : Members)

namespace Frame

/-- The array or object with a value in it. -/
def plug (v : Json) : Frame → Json
  | .item before after => .arr (before ++ v :: after)
  | .member before key after => .obj (before ++ (key, v) :: after)

/-- The text of an array or object at `depth` in front of the value. -/
def front (depth : Nat) : Frame → Text
  | .item before _ =>
    .char '[' :: newline (depth + 1) ++ before.flatMap (fun v => textAt (depth + 1) v ++ separator (depth + 1))
  | .member before key _ =>
    .char '\x7b' :: newline (depth + 1) ++
      before.flatMap (fun m => memberText (depth + 1) m ++ separator (depth + 1)) ++ literal key ++
      [.char ':', .char ' ']

/-- The text of an array or object at `depth` behind the value. -/
def back (depth : Nat) : Frame → Text
  | .item _ after =>
    after.flatMap (fun v => separator (depth + 1) ++ textAt (depth + 1) v) ++ newline depth ++ [.char ']']
  | .member _ _ after =>
    after.flatMap (fun m => separator (depth + 1) ++ memberText (depth + 1) m) ++ newline depth ++ [.char '\x7d']

theorem textAt_plug (depth : Nat) (v : Json) (f : Frame) :
    textAt depth (f.plug v) = f.front depth ++ textAt (depth + 1) v ++ f.back depth := by
  cases f with
  | item before after => exact textAt_arr depth before v after
  | member before key after =>
    rw [plug, textAt_obj, memberText, front, back]
    simp

end Frame

/-- The way to a value from the whole document. -/
abbrev Place := List Frame

namespace Place

/-- The document with a value at a place. -/
def plug (v : Json) (place : Place) : Json := place.foldr (fun f v => f.plug v) v

/-- The text in front of a place in a value at `depth`. -/
def front (depth : Nat) : Place → Text
  | [] => []
  | f :: rest => f.front depth ++ front (depth + 1) rest

/-- The text behind a place in a value at `depth`. -/
def back (depth : Nat) : Place → Text
  | [] => []
  | f :: rest => back (depth + 1) rest ++ f.back depth

theorem plug_append (v : Json) (place inner : Place) : plug v (place ++ inner) = plug (plug v inner) place :=
  List.foldr_append

/-- A member of an object at a place has a place of its own. -/
theorem plug_obj (place : Place) (before : Members) (key : Text) (v : Json) (after : Members) :
    place.plug (.obj (before ++ (key, v) :: after)) = plug v (place ++ [.member before key after]) := by
  rw [plug_append]
  rfl

/-- A value stands in its text between what is in front of its place and what is behind it. -/
theorem textAt_plug (depth : Nat) (v : Json) (place : Place) :
    textAt depth (place.plug v) = place.front depth ++ textAt (depth + place.length) v ++ place.back depth := by
  induction place generalizing depth with
  | nil => simp [plug, front, back]
  | cons f rest ih =>
    show textAt depth (f.plug (plug v rest)) = _
    rw [Frame.textAt_plug, ih, front, back, List.length_cons, Nat.add_right_comm, Nat.add_assoc depth]
    simp

/-- The text of a document around a place. -/
theorem render_plug (v : Json) (place : Place) :
    (place.plug v).render = place.front 0 ++ textAt place.length v ++ place.back 0 := by
  rw [render_eq, textAt_plug, Nat.zero_add]

/-- The text in front of a place in a place. -/
theorem front_append (depth : Nat) (place inner : Place) :
    front depth (place ++ inner) = front depth place ++ front (depth + place.length) inner := by
  induction place generalizing depth with
  | nil => simp [front]
  | cons f rest ih =>
    rw [List.cons_append, front, ih, front, List.length_cons, Nat.add_right_comm, Nat.add_assoc depth]
    simp

/-- The text behind a place in a place. -/
theorem back_append (depth : Nat) (place inner : Place) :
    back depth (place ++ inner) = back (depth + place.length) inner ++ back depth place := by
  induction place generalizing depth with
  | nil => simp [back]
  | cons f rest ih =>
    rw [List.cons_append, back, ih, back, List.length_cons, Nat.add_right_comm, Nat.add_assoc depth]
    simp

/-- With one more member behind that of a place, the text of a document is that of the place's document with the new
member in front of the end of the object. -/
theorem render_plug_obj (place : Place) (before : Members) (last new : Text × Json) :
    (place.plug (.obj (before ++ [last, new]))).render =
      front 0 (place ++ [.member before last.1 []]) ++ textAt (place.length + 1) last.2 ++
        (separator (place.length + 1) ++ memberText (place.length + 1) new) ++
        back 0 (place ++ [.member before last.1 []]) := by
  have hfront : front 0 (place ++ [.member before last.1 [new]]) = front 0 (place ++ [.member before last.1 []]) := by
    rw [front_append, front_append]
    rfl
  rw [plug_obj, render_plug, hfront, back_append, back_append, List.length_append]
  simp [back, Frame.back]

end Place

end Json

/-! ## The place of an entry -/

namespace Abi

variable {p : Entry → Bool} {change : Entry → Entry} {document : Json} {es : List Entry} {entry : Entry}

/-- An entry stands in a document at a place as the first that satisfies `p`: in the array that is the first member
`abi`, behind entries that do not satisfy it. -/
inductive StandsAt (p : Entry → Bool) (document : Json) (entry : Entry) : Json.Place → Prop
  | intro (ms ms' : Members) (es es' : List Entry) : abiName ∉ ms.map (·.1) → (∀ e ∈ es, p e = false) →
    p entry = true →
    document = Json.Place.plug (.obj entry) [.member ms abiName ms', .item (es.map .obj) (es'.map .obj)] →
    StandsAt p document entry [.member ms abiName ms', .item (es.map .obj) (es'.map .obj)]

namespace StandsAt

variable {place : Json.Place}

/-- The document has the entry at the place. -/
theorem eq_plug (h : StandsAt p document entry place) : document = place.plug (.obj entry) := by
  obtain ⟨ms, ms', es, es', -, -, -, hdocument⟩ := h
  exact hdocument

theorem holds (h : StandsAt p document entry place) : p entry = true := by
  obtain ⟨ms, ms', es, es', -, -, hentry, -⟩ := h
  exact hentry

/-- Entries are two levels deep. -/
theorem length_eq (h : StandsAt p document entry place) : place.length = 2 := by
  obtain ⟨ms, ms', es, es', -, -, -, -⟩ := h
  rfl

end StandsAt

/-- A function has members. -/
theorem ne_nil_of_isFunction {name : Json} (h : isFunction name entry = true) : entry ≠ [] := by
  rintro rfl
  cases h

/-- The first matching entry stands at a place, where a change of it puts the changed one. -/
theorem exists_standsAt (hes : entries document = .ok es) (hfind : es.find? p = some entry) (change : Entry → Entry) :
    ∃ place, StandsAt p document entry place ∧
      withEntries document (changeFirst p change es) = place.plug (.obj (change entry)) := by
  obtain ⟨ms, ms', hms, rfl, haround⟩ := exists_around_entries hes
  obtain ⟨hentry, before, after, rfl, hbefore⟩ := List.find?_eq_some_iff_append.mp hfind
  have hfalse : ∀ e ∈ before, p e = false := fun e he => by simpa using hbefore e he
  refine ⟨_, .intro ms ms' before after hms hfalse hentry ?_, ?_⟩
  · rw [List.map_append, List.map_cons]
    rfl
  · rw [haround, changeFirst_append hfalse hentry, List.map_append, List.map_cons]
    rfl

end Abi

/-! ## The bytes of a changed artifact -/

namespace Request

variable {r : Request} {host : Host} {tree : FileTree} {m : Text} {document : Json}
  {es : List Abi.Entry} {entry : Abi.Entry} {loc : Location} {mode : Nat} {content : Utf8.Bytes}

/-- One piece of a file's bytes is replaced: they are those of `front`, `old` and `back`; the request writes exactly
when no call is made to fail and there is room beside the file, and then it holds those of `front`, `new` and `back`. -/
def Splices (r : Request) (tree : FileTree) (loc : Location) (mode : Nat) (content : Utf8.Bytes)
    (front old new back : Text) : Prop :=
  ∃ a x y b, Utf8.encode front = .ok a ∧ Utf8.encode old = .ok x ∧ Utf8.encode new = .ok y ∧ Utf8.encode back = .ok b ∧
    content = a ++ x ++ b ∧
    ∀ host, ((r.run host tree).wrote = true ↔ host.fault = none ∧ tree.Room loc) ∧
      ((r.run host tree).wrote = true → (r.run host tree).tree = tree.set loc (.file mode (a ++ y ++ b)))

/-- A change that replaces a piece of the text replaces the same piece of the bytes. -/
theorem splices_of_render {front old new back : Text} (hwell : tree.WellFormed) (h : r.Planned tree m document es entry)
    (hfind : tree.find r.path = .ok loc) (hfile : tree.entry? loc = some (.file mode content))
    (hlayout : Utf8.encode document.render = .ok content) (hold : document.render = front ++ old ++ back)
    (hnew : (r.changed m document es).render = front ++ new ++ back) (hencode : ∃ y, Utf8.encode new = .ok y) :
    r.Splices tree loc mode content front old new back := by
  rw [hold] at hlayout
  obtain ⟨ax, b, hax, hb, rfl⟩ := Utf8.encode_append_eq_ok_iff.mp hlayout
  obtain ⟨a, x, ha, hx, rfl⟩ := Utf8.encode_append_eq_ok_iff.mp hax
  obtain ⟨y, hy⟩ := hencode
  have hbytes : Utf8.encode (r.changed m document es).render = .ok (a ++ y ++ b) := by
    rw [hnew]
    exact Utf8.encode_append_eq_ok_iff.mpr ⟨_, b, Utf8.encode_append_eq_ok_iff.mpr ⟨a, y, ha, hy, rfl⟩, hb, rfl⟩
  obtain ⟨hnul, -⟩ := Artifact.load_eq_ok h.load
  refine ⟨a, x, y, b, ha, hx, hy, hb, rfl, fun host => ⟨?_, fun hwrote => ?_⟩⟩
  · rw [h.wrote_iff, Artifact.exists_store_iff hwell hnul hfind hfile h.readable_changed.hasLongWhole_eq_false]
    exact ⟨fun hall => ⟨hall.1, hall.2.1⟩, fun hall => ⟨hall.1, hall.2, _, hbytes⟩⟩
  · obtain ⟨bytes, hbytes', htree, -⟩ := h.exists_of_wrote hwell hfind hfile hwrote
    obtain rfl : bytes = a ++ y ++ b := Except.ok.inj (hbytes'.symm.trans hbytes)
    exact htree

/-- What is written of a mutability can be encoded: its literal, and a member of an entry with it. -/
theorem encode_of_check (hcheck : r.check = .ok m) :
    (∃ bytes, Utf8.encode (Json.literal m) = .ok bytes) ∧
      ∃ bytes, Utf8.encode (Json.separator 3 ++ Json.memberText 3 (Abi.mutabilityName, .str m)) = .ok bytes := by
  have hall : ∀ t ∈ Abi.mutabilities, (Utf8.encode (Json.literal t)).toOption.isSome = true ∧
      (Utf8.encode (Json.separator 3 ++ Json.memberText 3 (Abi.mutabilityName, .str t))).toOption.isSome = true := by
    decide +kernel
  obtain ⟨hliteral, hmember⟩ := hall m (check_eq_ok hcheck).2.2
  obtain ⟨x, hx⟩ := Option.isSome_iff_exists.mp hliteral
  obtain ⟨y, hy⟩ := Option.isSome_iff_exists.mp hmember
  exact ⟨⟨x, eq_ok_of_toOption hx⟩, y, eq_ok_of_toOption hy⟩

/-- The members of a matching entry of a document that was read have distinct names. -/
theorem Planned.nodup_entry (h : r.Planned tree m document es entry) : (entry.map (·.1)).Nodup :=
  (Abi.all_of_entries h.entries (Artifact.readable_of_load h.load) entry (List.mem_of_find?_eq_some h.find)).self.1

open Json in
/-- In a tree of files, with an artifact that is written in the layout of documents: the first matching entry stands at
a place of the document. If its mutability is a text, a request replaces the literal of it in the bytes, and the rest is
as it was. If it has none, a comma, the start of a line and the new member are inserted behind its last member. -/
theorem splices_of_layout (hwell : tree.WellFormed) (h : r.Planned tree m document es entry)
    (hfind : tree.find r.path = .ok loc) (hfile : tree.entry? loc = some (.file mode content))
    (hlayout : Utf8.encode document.render = .ok content) :
    ∃ place, Abi.StandsAt (Abi.isFunction r.function) document entry place ∧
      (∀ s, Members.get? Abi.mutabilityName entry = some (.str s) →
        ∃ before after, entry = before ++ (Abi.mutabilityName, .str s) :: after ∧
          Abi.mutabilityName ∉ (before ++ after).map (·.1) ∧
          r.Splices tree loc mode content (Place.front 0 (place ++ [.member before Abi.mutabilityName after]))
            (literal s) (literal m) (Place.back 0 (place ++ [.member before Abi.mutabilityName after]))) ∧
      (Members.get? Abi.mutabilityName entry = none →
        ∃ before last, entry = before ++ [last] ∧
          r.Splices tree loc mode content (Place.front 0 (place ++ [.member before last.1 []]) ++ textAt 3 last.2)
            [] (separator 3 ++ memberText 3 (Abi.mutabilityName, .str m))
            (Place.back 0 (place ++ [.member before last.1 []]))) := by
  obtain ⟨place, hplace, hchanged⟩ := Abi.exists_standsAt h.entries h.find (Abi.declare m)
  obtain ⟨hliteral, hmember⟩ := encode_of_check h.check
  refine ⟨place, hplace, fun s hs => ?_, fun hnone => ?_⟩
  · obtain ⟨before, after, hentry, hfirst⟩ := Members.exists_append_of_get? hs
    have honly : Abi.mutabilityName ∉ (before ++ after).map (·.1) := by
      have hnodup := h.nodup_entry
      rw [hentry, List.map_append, List.map_cons, List.perm_middle.nodup_iff, List.nodup_cons] at hnodup
      rw [List.map_append]
      exact hnodup.1
    refine ⟨before, after, hentry, honly, splices_of_render hwell h hfind hfile hlayout ?_ ?_ hliteral⟩
    · rw [hplace.eq_plug, hentry, Place.plug_obj, Place.render_plug, textAt_str]
    · rw [changed, hchanged, hentry, Abi.declare, Members.put_append hfirst, Place.plug_obj, Place.render_plug,
        textAt_str]
  · obtain ⟨before, last, hentry⟩ := (List.eq_nil_or_concat entry).resolve_left (Abi.ne_nil_of_isFunction hplace.holds)
    rw [List.concat_eq_append] at hentry
    refine ⟨before, last, hentry, splices_of_render hwell h hfind hfile hlayout ?_ ?_ hmember⟩
    · rw [hplace.eq_plug, hentry, Place.plug_obj, Place.render_plug, List.append_nil, List.length_append,
        hplace.length_eq]
      rfl
    · rw [changed, hchanged, Abi.declare, Members.put_of_not_mem (Members.not_mem_of_get? hnone), hentry,
        List.append_assoc, List.singleton_append, Place.render_plug_obj, hplace.length_eq]

/-- An artifact in the layout of documents in which two functions have the name `f`. -/
def laidOutText : String :=
  "\x7b\n  \"abi\": [\n    \x7b\n      \"type\": \"function\",\n      \"stateMutability\": \"payable\",\n" ++
    "      \"name\": \"f\"\n    \x7d,\n    \x7b\n      \"type\": \"function\",\n      \"name\": \"f\"\n" ++
    "    \x7d\n  ],\n  \"x\": []\n\x7d"

/-- A tree with this artifact. -/
def laidOut : FileTree := .oneFile "A.json" laidOutText

theorem splices_of_layout_laidOut :
    ∃ document es entry, viewOfF.Planned laidOut (Text.ofString "view") document es entry ∧
      Members.get? Abi.mutabilityName entry = some (.str (Text.ofString "payable")) ∧
      ∃ place before after, Abi.StandsAt (Abi.isFunction viewOfF.function) document entry place ∧
        viewOfF.Splices laidOut [Text.ofString "A.json"] 0o644 (Utf8.encodeChars laidOutText.toList)
          (Json.Place.front 0 (place ++ [.member before Abi.mutabilityName after]))
          (Json.literal (Text.ofString "payable")) (Json.literal (Text.ofString "view"))
          (Json.Place.back 0 (place ++ [.member before Abi.mutabilityName after])) := by
  have hcontent : ((Artifact.decode (Utf8.encodeChars laidOutText.toList)).toOption.any fun document =>
      (Utf8.encode document.render).toOption == some (Utf8.encodeChars laidOutText.toList) &&
        (Abi.entries document).toOption.any fun es =>
          (es.find? (Abi.isFunction viewOfF.function)).any fun entry =>
            (Members.get? Abi.mutabilityName entry).any fun v => v.same (.str (Text.ofString "payable"))) = true := by
    decide +kernel
  obtain ⟨document, hdocument, hholds⟩ := (Option.any_eq_true _ _).mp hcontent
  rw [Bool.and_eq_true, beq_iff_eq] at hholds
  obtain ⟨hlayout, hholds⟩ := hholds
  obtain ⟨es, hes, hholds⟩ := (Option.any_eq_true _ _).mp hholds
  obtain ⟨entry, hentry, hholds⟩ := (Option.any_eq_true _ _).mp hholds
  obtain ⟨v, hpayable, hsame⟩ := (Option.any_eq_true _ _).mp hholds
  obtain rfl := Abi.same_str.mp hsame
  have hload : Artifact.load laidOut viewOfF.path = .ok document :=
    (Artifact.load_of_read rfl rfl).trans (eq_ok_of_toOption hdocument)
  have hplanned : viewOfF.Planned laidOut (Text.ofString "view") document es entry :=
    ⟨by rfl, hload, eq_ok_of_toOption hes, hentry⟩
  obtain ⟨place, hplace, hstr, -⟩ :=
    splices_of_layout (show laidOut.WellFormed by decide +kernel) hplanned rfl rfl (eq_ok_of_toOption hlayout)
  obtain ⟨before, after, -, -, hsplices⟩ := hstr _ hpayable
  exact ⟨document, es, entry, hplanned, hpayable, place, before, after, hplace, hsplices⟩

end Request

end Redeclare

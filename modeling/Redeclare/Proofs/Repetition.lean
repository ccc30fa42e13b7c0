import Redeclare.Proofs.Frames
import Redeclare.Proofs.Redeclared

/-!
# Doing the same again

The same request, made once more, finds the document that it wrote: the same entry matches first, it has the mutability
already, and the changed document is the one that is there. So the same bytes are written with the same mode, and only
the status and the previous mutability of the outcome differ. That the second request is not refused where the first was
not is seen in what a replacement needs: room for a new file, and a text that can be encoded.
-/

namespace Redeclare

/-! ## When a document is stored -/

namespace Artifact

/-- In a tree of files, a document without long integers is stored over a file exactly when no call is made to fail,
there is room for a new file beside it, and the text of the document can be encoded. -/
theorem exists_store_iff {host : Host} {tree : FileTree} {path : Path} {document : Json}
    {loc : Location} {mode : Nat} {content : Utf8.Bytes} (hwell : tree.WellFormed) (hnul : path.hasNul = false)
    (hfind : tree.find path = .ok loc) (hfile : tree.entry? loc = some (.file mode content))
    (hshort : document.hasLongWhole = false) :
    (∃ wrote, (store host tree path document).2 = .ok wrote) ↔
      host.fault = none ∧ tree.Room loc ∧ ∃ bytes, Utf8.encode document.render = .ok bytes := by
  rw [← FileTree.failure_replaceAt_iff hwell hfile (host.seeds 0)]
  have hstore : (∃ wrote, (store host tree path document).2 = .ok wrote) ↔
      ∃ after wrote, store host tree path document = (after, .ok wrote) := by
    simp [Prod.ext_iff]
  rw [hstore]
  simp [store_eq_ok_iff, hshort, FileTree.destination_of_find hwell hnul hfind]

end Artifact

/-! ## Changes -/

namespace Edit

/-- A change writes exactly when the document is stored. -/
theorem wrote_commit_iff (e : Edit) (r : Request) (host : Host) (tree : FileTree) :
    (e.commit r host tree).wrote = true ↔
      ∃ wrote, (Artifact.store host tree r.path e.document).2 = .ok wrote := by
  rcases Artifact.store_cases host tree r.path e.document with
    ⟨f, hstore⟩ | ⟨loc, mode, bytes, written, -, hstore, -⟩
  · simp only [commit, hstore, wrote_warnings]
    simp
  · unfold commit
    simp only [hstore]
    cases e.selector host.room <;> simp [Run.wrote]

/-- An outcome that was made can be made with another status and a text for the previous value. -/
theorem make_again {path : Path} {function previous : Json} {status : Status} {selector : Option Text}
    {outcome : Outcome} (h : Outcome.make path function status previous selector = .ok outcome) (status' : Status)
    (t : Text) :
    Outcome.make path function status' (.str t) selector =
      .ok { outcome with status := status', previous := some t } := by
  cases function with
  | str name =>
    unfold Outcome.make at h
    cases hprevious : Checked.text? Outcome.previousName [(Outcome.previousName, previous)] with
    | error errors =>
      rw [hprevious] at h
      cases h
    | ok found =>
      rw [hprevious] at h
      cases h
      simp [Outcome.make, Checked.within, Checked.text, Checked.text?, Checked.and, Members.get?]
  | _ =>
    unfold Outcome.make at h
    cases hprevious : Checked.text? Outcome.previousName [(Outcome.previousName, previous)] <;>
      rw [hprevious] at h <;> cases h

/-- What follows a write that leaves the mutability that was there: the outcome of a change before it with the same
entry, but for the status and the previous value. -/
theorem finish_again {e again : Edit} {r : Request} {room : Nat} {outcome : Outcome}
    (h : e.finish r room = .ok outcome) (hentry : again.entry = e.entry)
    (hprevious : again.previous = .str again.mutability) :
    again.finish r room = .ok { outcome with status := .unchanged, previous := some again.mutability } := by
  have hselector : again.selector room = e.selector room := by
    rw [selector, selector, hentry]
  have hstatus : again.status = .unchanged := by
    rw [status, hprevious, if_pos (Abi.same_str.mpr rfl)]
  rw [finish, hselector, hstatus, hprevious]
  rw [finish] at h
  split at h
  · cases h
  · rename_i s hs
    simp only [make_again h]

end Edit

/-! ## Requests -/

namespace Request

variable {r : Request} {host : Host} {tree : FileTree} {m : Text} {document : Json}
  {es : List Abi.Entry} {entry : Abi.Entry}

/-- What a plan is made from determines it. -/
theorem Planned.plan (h : r.Planned tree m document es entry) :
    r.plan tree = .ok (.edit (r.edit m document es entry)) := by
  rw [plan_eq_planFrom, h.load]
  exact Changes.planFrom ⟨h.check, h.entries, h.find⟩

/-- A planned change is written exactly when the changed document is stored. -/
theorem Planned.wrote_iff (h : r.Planned tree m document es entry) (host : Host) :
    (r.run host tree).wrote = true ↔
      ∃ wrote, (Artifact.store host tree r.path (r.changed m document es)).2 = .ok wrote := by
  have hcommit := (r.edit m document es entry).wrote_commit_iff r host tree
  simp only [run, h.plan]
  exact hcommit

/-- In a tree of files, a planned change that was written is in the file that the path leads to, with the mode of that
file. -/
theorem Planned.exists_of_wrote {loc : Location} {mode : Nat} {content : Utf8.Bytes}
    (h : r.Planned tree m document es entry) (hwell : tree.WellFormed) (hfind : tree.find r.path = .ok loc)
    (hfile : tree.entry? loc = some (.file mode content)) (hwrote : (r.run host tree).wrote = true) :
    ∃ bytes, Utf8.encode (r.changed m document es).render = .ok bytes ∧
      (r.run host tree).tree = tree.set loc (.file mode bytes) ∧
      (r.run host tree).result = (r.edit m document es entry).finish r host.room := by
  obtain ⟨m', document', es', entry', loc', mode', content', bytes, hplanned, -, hfind', hfile', -, hbytes, htree,
    hresult⟩ := Request.exists_of_wrote hwell hwrote
  obtain ⟨rfl, rfl, rfl, rfl⟩ := h.unique hplanned
  obtain rfl : loc = loc' := Except.ok.inj (hfind.symm.trans hfind')
  have hentry := Option.some.inj (hfile.symm.trans hfile')
  rw [Entry.file.injEq] at hentry
  obtain ⟨rfl, rfl⟩ := hentry
  exact ⟨bytes, hbytes, htree, hresult⟩

/-- The entries after a change, the first match with its mutability. -/
def changedEntries (r : Request) (m : Text) (es : List Abi.Entry) : List Abi.Entry :=
  Abi.changeFirst (Abi.isFunction r.function) (Abi.declare m) es

/-- Changing a changed document again changes nothing more. -/
theorem changed_changed (r : Request) (m : Text) (document : Json) (es : List Abi.Entry) :
    r.changed m (r.changed m document es) (r.changedEntries m es) = r.changed m document es := by
  unfold changed changedEntries
  rw [Abi.withEntries_withEntries,
    Abi.changeFirst_changeFirst (Abi.isFunction_declare r.function m) (Abi.declare_declare m)]

/-- In a tree from which the changed document is loaded, the same change is planned again: of the changed entry. -/
theorem Planned.again {after : FileTree} (h : r.Planned tree m document es entry)
    (hload : Artifact.load after r.path = .ok (r.changed m document es)) :
    r.Planned after m (r.changed m document es) (r.changedEntries m es) (Abi.declare m entry) where
  check := h.check
  load := hload
  entries := h.entries_changed
  find := Abi.find?_changeFirst (Abi.isFunction_declare r.function m) h.find

/-- In a tree of files with an artifact of finite doubles: after a request that comes to the outcome that its function
was declared anew, or had been so before, the same request has the same outcome, but that the function had the
mutability before, and leaves the tree as it is. The second time, another name may be drawn for the new file. -/
theorem run_again {other : Host} {outcome : Outcome} (hwell : tree.WellFormed)
    (hload : Artifact.load tree r.path = .ok document) (hfinite : document.Finite) (hagrees : host.Agrees other)
    (h : (r.run host tree).result = .ok outcome) (hstatus : outcome.status = .patched ∨ outcome.status = .unchanged) :
    ∃ m, r.mutability = .str m ∧
      (r.run other (r.run host tree).tree).result =
        .ok { outcome with status := .unchanged, previous := some m } ∧
      (r.run other (r.run host tree).tree).tree = (r.run host tree).tree := by
  have hwrote := wrote_of_result h hstatus
  obtain ⟨m, found, es, entry, loc, mode, content, bytes, hplanned, hnul, hfind, hfile, -, hbytes, htree, hresult⟩ :=
    exists_of_wrote hwell hwrote
  obtain rfl : document = found := Except.ok.inj (hload.symm.trans hplanned.load)
  rw [hresult] at h
  rw [htree]
  -- the tree after the first request has the same shape, and the changed document is read back from it
  have hshape := FileTree.sameShape_set hfile mode bytes
  have hrewritten := FileTree.rewritten_set hfile bytes
  have hfile' : FileTree.entry? (tree.set loc (.file mode bytes)) loc = some (.file mode bytes) :=
    FileTree.entry?_set_self (FileTree.ne_nil_of_file hfile)
  have hfind' : (tree.set loc (.file mode bytes)).find r.path = .ok loc := (hrewritten.finds r.path).trans hfind
  have hreload : Artifact.load (tree.set loc (.file mode bytes)) r.path = .ok (r.changed m document es) := by
    rw [load_set hnul hfind hfile, Artifact.decode_render hplanned.readable_changed hbytes,
      Artifact.readBack_of_finite (hplanned.finite_changed hfinite)]
  have hagain := hplanned.again hreload
  -- so the second request writes as the first did
  have hshort := hplanned.readable_changed.hasLongWhole_eq_false
  have hwrote' : (r.run other (tree.set loc (.file mode bytes))).wrote = true := by
    rw [hagain.wrote_iff, changed_changed,
      Artifact.exists_store_iff (hshape.wellFormed hwell) hnul hfind' hfile' hshort,
      FileTree.room_congr hrewritten.locations, hagrees.fault]
    exact (Artifact.exists_store_iff hwell hnul hfind hfile hshort).mp ((hplanned.wrote_iff host).mp hwrote)
  obtain ⟨bytes', hbytes', htree', hresult'⟩ :=
    hagain.exists_of_wrote (hshape.wellFormed hwell) hfind' hfile' hwrote'
  rw [changed_changed] at hbytes'
  obtain rfl : bytes = bytes' := Except.ok.inj (hbytes.symm.trans hbytes')
  refine ⟨m, (check_eq_ok hplanned.check).2.1, ?_, ?_⟩
  · rw [hresult', hagrees.room]
    refine Edit.finish_again h (Abi.declare_declare m entry) ?_
    show (Members.get? Abi.mutabilityName (Abi.declare m entry)).getD .null = .str m
    rw [Abi.declare, Members.get?_put_self, Option.getD_some]
  · rw [htree', FileTree.set_set]

/-- A tree with an artifact in which the name of a function is escaped, its mutability is given twice, and another
function has the same name. -/
def givenTwice : FileTree :=
  .oneFile "A.json" <|
    "\x7b\"abi\":[\x7b\"type\":\"function\",\"name\":\"\\u0066\",\"stateMutability\":\"view\"," ++
      "\"stateMutability\":\"payable\"\x7d,\x7b\"type\":\"function\",\"name\":\"f\"\x7d]\x7d"

theorem run_again_givenTwice :
    ∃ second, (viewOfF.run .inTurn (viewOfF.run .plain givenTwice).tree).result = .ok second ∧
      second.status = .unchanged ∧ second.previous = some (Text.ofString "view") ∧
      (viewOfF.run .inTurn (viewOfF.run .plain givenTwice).tree).tree = (viewOfF.run .plain givenTwice).tree := by
  have hpatched : ((viewOfF.run .plain givenTwice).result.toOption.map (·.status)) = some .patched := by decide +kernel
  obtain ⟨outcome, houtcome, hstatus⟩ := Option.map_eq_some_iff.mp hpatched
  have hloads : ((Artifact.load givenTwice viewOfF.path).toOption.any fun d => decide d.Finite) = true := by
    decide +kernel
  obtain ⟨document, hdocument, hfinite⟩ := (Option.any_eq_true _ _).mp hloads
  obtain ⟨m, hm, hresult, htree⟩ :=
    run_again (show givenTwice.WellFormed by decide +kernel) (eq_ok_of_toOption hdocument)
      (of_decide_eq_true hfinite) (show Host.plain.Agrees .inTurn from ⟨rfl, rfl⟩) (eq_ok_of_toOption houtcome)
      (.inl hstatus)
  obtain rfl : Text.ofString "view" = m := Json.str.inj hm
  exact ⟨_, hresult, rfl, rfl, htree⟩

end Request

end Redeclare

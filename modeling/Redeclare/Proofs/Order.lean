import Redeclare.Proofs.Locality
import Redeclare.Proofs.Repetition

/-!
# The order of targets

Requests for two functions of one file can be exchanged. Each of them reads the file, changes its entry and writes the
whole document again, and so the other one reads another content, but a document with the same entry for its function.
The changes of two entries can be made in either order, and a document is always written in the same way. A request that
changes nothing, because its function is not there or because it fails, changes nothing after the other one either.
Requests for different files leave each other's file alone. A batch of such requests can so be put into any order: each
target has the outcome that it would have alone.
-/

namespace Redeclare

/-- The mutabilities are made of characters. -/
theorem Abi.noLoneSurrogate_mutability {m : Text} (h : m ∈ mutabilities) : Json.NoLoneSurrogate (.str m) := by
  simp only [mutabilities, List.mem_cons, List.not_mem_nil, or_false] at h
  intro u
  rcases h with rfl | rfl | rfl | rfl <;> exact Text.lone_not_mem_ofString u _

/-! ## Sound trees -/

/-- A content whose document, if it holds one, has finite doubles and characters only. -/
def Artifact.Sound (content : Utf8.Bytes) : Prop :=
  ∀ document, decode content = .ok document → document.Finite ∧ document.All Json.NoLoneSurrogate

namespace FileTree

variable {tree : FileTree}

/-- A tree of files whose documents have finite doubles and characters only. -/
structure Sound (tree : FileTree) : Prop where
  wellFormed : tree.WellFormed
  finite : tree.AllDocuments Json.FiniteDouble
  characters : tree.AllDocuments Json.NoLoneSurrogate

theorem Sound.content {loc : Location} {mode : Nat} {content : Utf8.Bytes} (h : tree.Sound)
    (hfile : tree.entry? loc = some (.file mode content)) : Artifact.Sound content := by
  intro document hdecode
  exact ⟨h.finite loc mode content document hfile hdecode, h.characters loc mode content document hfile hdecode⟩

/-- Whether a tree of files is sound shows in its documents: they have finite doubles and characters only. -/
theorem sound_of_documents (hwell : tree.WellFormed)
    (h : ∀ d ∈ tree.documents, d.Finite ∧ (Utf8.encode d.render).isOk = true) : tree.Sound := by
  refine ⟨hwell, allDocuments_of_documents fun d hd => (h d hd).1, allDocuments_of_documents ?_⟩
  intro d hd
  have hencode := (h d hd).2
  rw [← Json.lone_not_mem_render, ← Utf8.exists_encode_iff]
  cases hbytes : Utf8.encode d.render with
  | ok bytes => exact ⟨bytes, rfl⟩
  | error e =>
    rw [hbytes] at hencode
    cases hencode

/-- A request leaves a sound tree sound. -/
theorem Sound.run (h : tree.Sound) (r : Request) (host : Host) : Sound (r.run host tree).tree where
  wellFormed := (r.alike_run h.wellFormed host).shape.wellFormed h.wellFormed
  finite := Request.finite_run h.wellFormed h.finite
  characters := Request.allDocuments_run Abi.kept_characters (fun _ hm => Abi.noLoneSurrogate_mutability hm)
    h.wellFormed h.finite h.characters

end FileTree

namespace Request

variable {r s : Request} {m m' : Text} {document : Json} {es : List Abi.Entry} {entry : Abi.Entry}

/-! ## Two changes of one document -/

/-- No entry is for the functions of both requests. -/
def Apart (r s : Request) : Prop :=
  ∀ entry, Abi.isFunction r.function entry = true → Abi.isFunction s.function entry = false

theorem Apart.symm (h : r.Apart s) : s.Apart r := by
  intro entry hs
  cases hr : Abi.isFunction r.function entry with
  | false => rfl
  | true =>
    rw [h entry hr] at hs
    cases hs

/-- Requests for functions with different names. -/
theorem apart_of_ne {f g : Text} (hr : r.function = .str f) (hs : s.function = .str g) (hne : f ≠ g) : r.Apart s := by
  intro entry hf
  rw [hr, Abi.isFunction_str] at hf
  rw [hs, Bool.eq_false_iff]
  intro hg
  rw [Abi.isFunction_str, hf, Option.some.injEq] at hg
  exact hne hg

/-- The first match of a request in a document that another one has changed. -/
theorem find?_changedEntries (h : r.Apart s) (m : Text) (es : List Abi.Entry) :
    (s.changedEntries m es).find? (Abi.isFunction r.function) = es.find? (Abi.isFunction r.function) :=
  Abi.find?_changeFirst_of_apart (Abi.isFunction_declare r.function m) h es

/-- A change is still there to be made when another request has made its own: of the same entry. -/
theorem Changes.after (h : r.Changes m document es entry) (hapart : r.Apart s) (m' : Text) :
    r.Changes m (s.changed m' document es) (s.changedEntries m' es) entry where
  check := h.check
  entries := Abi.entries_withEntries h.entries
  find := (find?_changedEntries hapart m' es).trans h.find

/-- A request that plans no change of a document plans the same when another request has made its own. -/
theorem planFrom_changed (hapart : r.Apart s) (hes : Abi.entries document = .ok es)
    (hno : ∀ e, r.planFrom (.ok document) ≠ .ok (.edit e)) (m' : Text) :
    r.planFrom (.ok (s.changed m' document es)) = r.planFrom (.ok document) := by
  have hes' : Abi.entries (s.changed m' document es) = .ok (s.changedEntries m' es) := Abi.entries_withEntries hes
  cases hcheck : r.check with
  | error e => simp only [planFrom, hcheck]
  | ok m =>
    cases hfind : es.find? (Abi.isFunction r.function) with
    | some entry => exact absurd (Changes.planFrom ⟨hcheck, hes, hfind⟩) (hno _)
    | none =>
      have hfind' := (find?_changedEntries hapart m' es).trans hfind
      simp only [planFrom, hcheck, Artifact.entries, hes, hes', planFor, hfind, hfind']

/-- Two changes of a document can be exchanged. -/
theorem changed_comm (hapart : r.Apart s) (m m' : Text) (document : Json) (es : List Abi.Entry) :
    r.changed m (s.changed m' document es) (s.changedEntries m' es) =
      s.changed m' (r.changed m document es) (r.changedEntries m es) := by
  unfold changed changedEntries
  rw [Abi.withEntries_withEntries, Abi.withEntries_withEntries,
    Abi.changeFirst_comm (Abi.isFunction_declare r.function m') (Abi.isFunction_declare s.function m) hapart]

/-! ## Two requests for one file -/

section
variable {host : Host} {tree : FileTree} {loc : Location} {content : Utf8.Bytes}

/-- A request that plans no change of a content leaves it. -/
theorem revise_of_no_edit {room : Nat} {replace : Text → Except Failure Utf8.Bytes}
    (h : ∀ e, r.planFrom (Artifact.decode content) ≠ .ok (.edit e)) : (r.revise room replace content).1 = content := by
  unfold revise
  split
  · rfl
  · rfl
  · rename_i e hplan
    exact absurd hplan (h e)

/-- What a request that plans no change comes to depends on its plan alone. -/
theorem result_revise_of_no_edit {room : Nat} {replace : Text → Except Failure Utf8.Bytes} {other : Utf8.Bytes}
    (h : ∀ e, r.planFrom (Artifact.decode content) ≠ .ok (.edit e))
    (hsame : r.planFrom (Artifact.decode other) = r.planFrom (Artifact.decode content)) :
    (r.revise room replace other).2 = (r.revise room replace content).2 := by
  unfold revise
  rw [hsame]
  cases hplan : r.planFrom (Artifact.decode content) with
  | error e => rfl
  | ok plan =>
    cases plan with
    | nothing => rfl
    | edit e => exact absurd hplan (h e)

/-- When the file cannot be replaced, a request leaves its content. -/
theorem revise_of_refused {f : Failure} (h : tree.replacementOn host loc [] = .error f) (r : Request)
    (content : Utf8.Bytes) : (r.revise host.room (tree.replacementOn host loc) content).1 = content := by
  unfold revise
  split
  · rfl
  · rfl
  · rename_i e _
    rw [FileTree.replacementOn] at h ⊢
    cases hreplace : FileTree.replacement host.fault (host.seeds 0) tree loc e.document.render with
    | error f => rfl
    | ok bytes =>
      rw [FileTree.replacement_of_encode (FileTree.encode_of_replacement hreplace), h] at hreplace
      cases hreplace

/-- What a change makes of a sound content when the file can be replaced: the changed document is written, is read back,
and is sound again. -/
theorem Changes.revise {empty : Utf8.Bytes} (h : r.Changes m document es entry)
    (hdecode : Artifact.decode content = .ok document) (hsound : Artifact.Sound content)
    (hreplace : tree.replacementOn host loc [] = .ok empty) :
    ∃ bytes, Utf8.encode (r.changed m document es).render = .ok bytes ∧
      Artifact.decode bytes = .ok (r.changed m document es) ∧ Artifact.Sound bytes ∧
      r.revise host.room (tree.replacementOn host loc) content =
        (bytes, (r.edit m document es entry).finish r host.room) := by
  obtain ⟨hfinite, hcharacters⟩ := hsound document hdecode
  have hclean : (r.changed m document es).All Json.NoLoneSurrogate :=
    all_changed Abi.kept_characters (Abi.noLoneSurrogate_mutability (check_eq_ok h.check).2.2) h.entries hcharacters
  obtain ⟨bytes, hbytes⟩ := Utf8.exists_encode_iff.mpr (Json.lone_not_mem_render.mpr hclean)
  have hagain := decode_changed hdecode h.entries hfinite hbytes
  refine ⟨bytes, hbytes, hagain, ?_, ?_⟩
  · intro other hother
    obtain rfl := Except.ok.inj (hagain.symm.trans hother)
    exact ⟨all_changed Abi.kept_finite trivial h.entries hfinite, hclean⟩
  · have hwritten : tree.replacementOn host loc (r.edit m document es entry).document.render = .ok bytes := by
      show tree.replacementOn host loc (r.changed m document es).render = .ok bytes
      rw [FileTree.replacementOn] at hreplace ⊢
      rw [FileTree.replacement_of_encode hbytes, hreplace]
    rw [Request.revise, hdecode, h.planFrom]
    simp only [hwritten]

/-- A request that plans no change of a sound content plans the same when another request has revised the content. -/
theorem planFrom_revise (host : Host) (tree : FileTree) (loc : Location) (hapart : r.Apart s)
    (hsound : Artifact.Sound content) (hno : ∀ e, r.planFrom (Artifact.decode content) ≠ .ok (.edit e)) :
    r.planFrom (Artifact.decode (s.revise host.room (tree.replacementOn host loc) content).1) =
      r.planFrom (Artifact.decode content) := by
  cases hreplace : tree.replacementOn host loc [] with
  | error f => rw [revise_of_refused hreplace]
  | ok empty =>
    by_cases hs : ∃ e, s.planFrom (Artifact.decode content) = .ok (.edit e)
    · obtain ⟨e, hs⟩ := hs
      obtain ⟨m', document, es, entry', hdecode, hs, -⟩ := planFrom_eq_edit hs
      obtain ⟨bytes, -, hdecode', -, hrevise⟩ := hs.revise hdecode hsound hreplace
      rw [hdecode] at hno
      rw [hrevise, hdecode', hdecode, planFrom_changed hapart hs.entries hno]
    · rw [revise_of_no_edit (not_exists.mp hs)]

/-- Two requests for different functions of one file, with a sound content. The one that comes second has the result
that it would have alone, and both orders leave the same content. -/
theorem revise_revise (host : Host) (tree : FileTree) (loc : Location) (hapart : r.Apart s)
    (hsound : Artifact.Sound content) :
    let replace := tree.replacementOn host loc
    (r.revise host.room replace (s.revise host.room replace content).1).2 = (r.revise host.room replace content).2 ∧
      (r.revise host.room replace (s.revise host.room replace content).1).1 =
        (s.revise host.room replace (r.revise host.room replace content).1).1 := by
  simp only
  by_cases hr : ∃ e, r.planFrom (Artifact.decode content) = .ok (.edit e)
  · by_cases hs : ∃ e, s.planFrom (Artifact.decode content) = .ok (.edit e)
    · cases hreplace : tree.replacementOn host loc [] with
      | error f =>
        simp only [revise_of_refused hreplace, and_self]
      | ok empty =>
        -- both write, and what the second one writes is the document with both changes
        obtain ⟨e, hr⟩ := hr
        obtain ⟨m, document, es, entry, hdecode, hr, -⟩ := planFrom_eq_edit hr
        obtain ⟨e', hs⟩ := hs
        obtain ⟨m', document', es', entry', hdecode', hs, -⟩ := planFrom_eq_edit hs
        obtain rfl : document = document' := Except.ok.inj (hdecode.symm.trans hdecode')
        obtain rfl : es = es' := Except.ok.inj (hr.entries.symm.trans hs.entries)
        obtain ⟨bytesr, -, hdecoder, hsoundr, hreviser⟩ := hr.revise hdecode hsound hreplace
        obtain ⟨bytess, -, hdecodes, hsounds, hrevises⟩ := hs.revise hdecode hsound hreplace
        obtain ⟨bytes, hbytes, -, -, hboth⟩ := (hr.after hapart m').revise hdecodes hsounds hreplace
        obtain ⟨bytes', hbytes', -, -, hboth'⟩ := (hs.after hapart.symm m).revise hdecoder hsoundr hreplace
        rw [changed_comm hapart, hbytes', Except.ok.injEq] at hbytes
        rw [hreviser, hrevises, hboth, hboth', hbytes]
        exact ⟨rfl, rfl⟩
    · -- only the first one writes
      have hno := not_exists.mp hs
      have hnoafter : ∀ e, s.planFrom (Artifact.decode (r.revise host.room (tree.replacementOn host loc) content).1) ≠
          .ok (.edit e) := by
        rw [planFrom_revise host tree loc hapart.symm hsound hno]
        exact hno
      rw [revise_of_no_edit hno, revise_of_no_edit hnoafter]
      exact ⟨rfl, rfl⟩
  · have hno := not_exists.mp hr
    have hsame := planFrom_revise host tree loc hapart hsound hno
    refine ⟨result_revise_of_no_edit hno hsame, ?_⟩
    rw [revise_of_no_edit hno, revise_of_no_edit (hsame ▸ hno)]

end

/-! ## Two requests in one tree -/

section
variable {host : Host} {tree : FileTree}

/-- A request whose path leads to no file can be exchanged with every other request. -/
theorem run_run_of_locate_error {e : Failure} (hwell : tree.WellFormed)
    (hlocate : Artifact.locate tree r.path = .error e) (s : Request) :
    (r.run host (s.run host tree).tree).result = (r.run host tree).result ∧
      (r.run host (s.run host tree).tree).tree = (s.run host (r.run host tree).tree).tree := by
  have hlocate' : Artifact.locate (s.run host tree).tree r.path = .error e := by
    rw [← Artifact.locate_congr (s.alike_run hwell host).shape, hlocate]
  obtain ⟨htree, hresult⟩ := run_of_locate_error hlocate host
  obtain ⟨htree', hresult'⟩ := run_of_locate_error hlocate' host
  rw [htree, htree', hresult, hresult']
  exact ⟨rfl, rfl⟩

/-- After a file has been overwritten, a request revises what is now in the file that its path led to before. -/
theorem run_set {other loc : Location} {m m' mode : Nat} {c c' content : Utf8.Bytes} (hwell : tree.WellFormed)
    (hother : tree.entry? other = some (.file m c)) (hlocate : Artifact.locate tree r.path = .ok loc)
    (hfile : FileTree.entry? (tree.set other (.file m' c')) loc = some (.file mode content))
    (host : Host) :
    let revised := r.revise host.room (tree.replacementOn host loc) content
    (r.run host (tree.set other (.file m' c'))).tree = (tree.set other (.file m' c')).set loc (.file mode revised.1) ∧
      (r.run host (tree.set other (.file m' c'))).result = revised.2 := by
  have halike := FileTree.alike_set hother m' c'
  obtain ⟨htree, hresult⟩ := run_of_file (halike.shape.wellFormed hwell)
    (Artifact.locate_congr halike.shape r.path ▸ hlocate) hfile host
  rw [htree, hresult, FileTree.replacementOn_congr halike.locations]
  exact ⟨rfl, rfl⟩

/-- Two requests for one file can be exchanged, if they are for different functions and the content is sound. -/
theorem run_run_of_same {loc : Location} {mode : Nat} {content : Utf8.Bytes} (hwell : tree.WellFormed)
    (hr : Artifact.locate tree r.path = .ok loc) (hs : Artifact.locate tree s.path = .ok loc)
    (hfile : tree.entry? loc = some (.file mode content)) (hsound : Artifact.Sound content) (hapart : r.Apart s) :
    (r.run host (s.run host tree).tree).result = (r.run host tree).result ∧
      (r.run host (s.run host tree).tree).tree = (s.run host (r.run host tree).tree).tree := by
  have hself : ∀ c, FileTree.entry? (tree.set loc (.file mode c)) loc = some (.file mode c) := by
    intro c
    exact FileTree.entry?_set_self (FileTree.ne_nil_of_file hfile)
  obtain ⟨htreer, hresultr⟩ := run_of_file hwell hr hfile host
  obtain ⟨htrees, -⟩ := run_of_file hwell hs hfile host
  obtain ⟨htree, hresult⟩ := run_set hwell hfile hr (hself (s.revise host.room _ content).1) host
  obtain ⟨htree', -⟩ := run_set hwell hfile hs (hself (r.revise host.room _ content).1) host
  obtain ⟨hresults, hcontents⟩ := revise_revise host tree loc hapart hsound
  rw [htrees, htreer, htree, htree', hresult, hresultr, FileTree.set_set, FileTree.set_set, hcontents, hresults]
  exact ⟨rfl, rfl⟩

/-- Two requests for different files can be exchanged. -/
theorem run_run_of_ne {loc loc' : Location} (hwell : tree.WellFormed) (hr : Artifact.locate tree r.path = .ok loc)
    (hs : Artifact.locate tree s.path = .ok loc') (hne : loc ≠ loc') :
    (r.run host (s.run host tree).tree).result = (r.run host tree).result ∧
      (r.run host (s.run host tree).tree).tree = (s.run host (r.run host tree).tree).tree := by
  obtain ⟨-, -, mode, content, hfile⟩ := Artifact.locate_eq_ok_iff.mp hr
  obtain ⟨-, -, mode', content', hfile'⟩ := Artifact.locate_eq_ok_iff.mp hs
  obtain ⟨htreer, hresultr⟩ := run_of_file hwell hr hfile host
  obtain ⟨htrees, -⟩ := run_of_file hwell hs hfile' host
  have hleft : ∀ bytes, FileTree.entry? (tree.set loc' (.file mode' bytes)) loc = some (.file mode content) := by
    intro bytes
    rw [FileTree.entry?_set_of_ne hne, hfile]
  have hleft' : ∀ bytes, FileTree.entry? (tree.set loc (.file mode bytes)) loc' = some (.file mode' content') := by
    intro bytes
    rw [FileTree.entry?_set_of_ne hne.symm, hfile']
  obtain ⟨htree, hresult⟩ := run_set hwell hfile' hr (hleft (s.revise host.room _ content').1) host
  obtain ⟨htree', -⟩ := run_set hwell hfile hs (hleft' (r.revise host.room _ content).1) host
  rw [htrees, htreer, htree, htree', hresult, hresultr,
    FileTree.set_comm hne.symm (FileTree.ne_nil_of_file hfile) hfile]
  exact ⟨rfl, rfl⟩

/-- Two requests that are not for one function of one file can be exchanged. The one that comes second has the result
that it would have alone. -/
theorem run_run (hsound : tree.Sound) (host : Host)
    (hapart : ∀ loc, tree.find r.path = .ok loc → tree.find s.path = .ok loc → r.Apart s) :
    (r.run host (s.run host tree).tree).result = (r.run host tree).result ∧
      (r.run host (s.run host tree).tree).tree = (s.run host (r.run host tree).tree).tree := by
  cases hr : Artifact.locate tree r.path with
  | error e => exact run_run_of_locate_error hsound.wellFormed hr s
  | ok loc =>
    cases hs : Artifact.locate tree s.path with
    | error e =>
      refine ⟨?_, (run_run_of_locate_error hsound.wellFormed hs r).2.symm⟩
      rw [(run_of_locate_error hs host).1]
    | ok loc' =>
      by_cases hne : loc = loc'
      · subst hne
        obtain ⟨-, hfindr, mode, content, hfile⟩ := Artifact.locate_eq_ok_iff.mp hr
        obtain ⟨-, hfinds, -⟩ := Artifact.locate_eq_ok_iff.mp hs
        exact run_run_of_same hsound.wellFormed hr hs hfile (hsound.content hfile) (hapart loc hfindr hfinds)
      · exact run_run_of_ne hsound.wellFormed hr hs hne

end

end Request

/-! ## Batches -/

namespace Target

variable {tree : FileTree} {a b : Target}

/-- Two targets do not name one function of one file. -/
def Apart (tree : FileTree) (a b : Target) : Prop :=
  ∀ loc, tree.find a.path = .ok loc → tree.find b.path = .ok loc → a.function ≠ b.function

theorem Apart.symm (h : Apart tree a b) : Apart tree b a := by
  intro loc hb ha
  exact (h loc ha hb).symm

/-- Targets that are apart in a tree are apart in every tree of its shape. -/
theorem Apart.congr {other : FileTree} (h : Apart tree a b) (hshape : FileTree.SameShape tree other) :
    Apart other a b := by
  intro loc ha hb
  rw [← hshape.find] at ha hb
  exact h loc ha hb

instance (tree : FileTree) : DecidableRel (Apart tree) := fun a b =>
  decidable_of_iff (∀ loc ∈ (tree.find a.path).toOption, tree.find b.path = .ok loc → a.function ≠ b.function) <| by
    unfold Apart
    cases tree.find a.path <;> simp [Except.toOption]

/-- The outcome of a target that is tried alone. -/
def alone (host : Host) (tree : FileTree) (t : Target) : Outcome :=
  t.record (t.request.run host tree).result

/-- On hosts that agree, a target that is tried alone has outcomes that are alike, and just the same one when the same
number is drawn for it. -/
theorem alone_alike {host other : Host} (t : Target) (hwell : tree.WellFormed) (hagrees : host.Agrees other) :
    (alone host tree t).Alike (alone other tree t) ∧
      (other.seeds 0 = host.seeds 0 → alone host tree t = alone other tree t) := by
  refine ⟨t.record_alike (t.request.run_of_agrees hwell hagrees).2, ?_⟩
  intro hseed
  rw [alone, alone, Request.run_of_seed hagrees hseed]

/-- Two targets that are apart can be exchanged, whatever numbers are drawn for them. -/
theorem Apart.run_run {host other : Host} (h : Apart tree a b) (hsound : tree.Sound) (hagrees : host.Agrees other) :
    alone host (b.request.run other tree).tree a = alone host tree a ∧
      (a.request.run host (b.request.run other tree).tree).tree =
        (b.request.run other (a.request.run host tree).tree).tree := by
  have hapart : ∀ loc, tree.find a.request.path = .ok loc → tree.find b.request.path = .ok loc →
      a.request.Apart b.request := by
    intro loc ha hb
    exact Request.apart_of_ne rfl rfl (h loc ha hb)
  obtain ⟨hresult, htree⟩ := Request.run_run hsound host hapart
  have hsame := (b.request.run_of_agrees hsound.wellFormed hagrees).1
  have hsame' := (b.request.run_of_agrees (hsound.run a.request host).wellFormed hagrees).1
  refine ⟨?_, ?_⟩
  · rw [hsame, alone, alone, hresult]
  · rw [hsame, hsame', htree]

end Target

namespace Batch

variable {tree : FileTree} {t : Target} {targets targets' : List Target} {host other : Host}

/-- After a batch of targets that a target is apart from, it has the outcome that it would have alone. By induction on
the targets, each of which leaves a tree in which it still has that outcome. -/
theorem alone_run (hsound : tree.Sound) (hagrees : host.Agrees other) (hapart : ∀ u ∈ targets, Target.Apart tree t u) :
    Target.alone host (run other tree targets).tree t = Target.alone host tree t := by
  induction targets generalizing tree other with
  | nil => rfl
  | cons first rest ih =>
    have hshape := (first.request.alike_run hsound.wellFormed other).shape
    have hrest : ∀ u ∈ rest, Target.Apart (first.request.run other tree).tree t u := by
      intro u hu
      exact (hapart u (List.mem_cons_of_mem first hu)).congr hshape
    have hagrees' : host.Agrees (other.after 1) := ⟨hagrees.fault, hagrees.room⟩
    rw [tree_run_cons, ih (hsound.run first.request other) hagrees' hrest]
    exact ((hapart first List.mem_cons_self).run_run hsound hagrees).1

/-- Of targets that are apart, each has the outcome that it would have alone. -/
theorem results_of_apart (hsound : tree.Sound) (host : Host) (hapart : targets.Pairwise (Target.Apart tree)) {i : Nat}
    (hi : targets[i]? = some t) :
    (run host tree targets).report.results[i]? = some (Target.alone (host.after i) tree t) := by
  rw [(run_position host tree hi).1, outcome_tryTarget]
  obtain ⟨hlt, rfl⟩ := List.getElem?_eq_some_iff.mp hi
  have hbefore : ∀ u ∈ targets.take i, Target.Apart tree targets[i] u := by
    intro u hu
    rw [← List.take_append_drop i targets, List.drop_eq_getElem_cons hlt, List.pairwise_append] at hapart
    exact (hapart.2.2 u hu _ List.mem_cons_self).symm
  exact congrArg some (alone_run hsound ⟨rfl, rfl⟩ hbefore)

/-- Targets that are apart leave the same tree in every order. By induction on how one order comes from the other, in
which single exchanges are made. -/
theorem tree_of_perm (hsound : tree.Sound) (host : Host)
    (hapart : targets.Pairwise (Target.Apart tree)) (hperm : targets.Perm targets') :
    (run host tree targets).tree = (run host tree targets').tree := by
  induction hperm generalizing tree host with
  | nil => rfl
  | cons t hperm ih =>
    rw [tree_run_cons, tree_run_cons]
    have hshape := (t.request.alike_run hsound.wellFormed host).shape
    refine ih (hsound.run t.request host) _ ((List.pairwise_cons.mp hapart).2.imp ?_)
    intro a b h
    exact h.congr hshape
  | swap a b rest =>
    have hba := (List.pairwise_cons.mp hapart).1 a List.mem_cons_self
    have hdrawn : ∀ (t : Target) (now : FileTree), now.WellFormed →
        (t.request.run (host.after 1) now).tree = (t.request.run host now).tree := by
      intro t now hwell
      exact (t.request.run_of_agrees hwell (show host.Agrees (host.after 1) from ⟨rfl, rfl⟩)).1
    rw [tree_run_cons, tree_run_cons, tree_run_cons, tree_run_cons, hdrawn a _ (hsound.run b.request host).wellFormed,
      hdrawn b _ (hsound.run a.request host).wellFormed, (hba.run_run hsound ⟨rfl, rfl⟩).2]
  | trans hfirst _ ih ih' =>
    rw [ih hsound host hapart]
    exact ih' hsound host (hfirst.pairwise hapart Target.Apart.symm)

/-- In a tree of files whose documents have finite doubles and characters only, for targets of which no two name one
function of one file, through whatever paths: a batch leaves the same tree in every order of its targets, and each
target has the same outcome, the one that it would have alone. The outcomes are alike whatever names are drawn for new
files in the two runs, and one is just the other when the same is drawn for it. -/
theorem run_perm (hsound : tree.Sound) (hagrees : host.Agrees other)
    (hapart : targets.Pairwise (Target.Apart tree)) (hperm : targets.Perm targets') :
    (run host tree targets).tree = (run other tree targets').tree ∧
      (run host tree targets).report.results.length = targets.length ∧
      (run other tree targets').report.results.length = targets'.length ∧
      ∀ i j t, targets[i]? = some t → targets'[j]? = some t →
        ∃ outcome outcome', (run host tree targets).report.results[i]? = some outcome ∧
          (run other tree targets').report.results[j]? = some outcome' ∧
          outcome = Target.alone (host.after i) tree t ∧ outcome.Alike outcome' ∧
          (other.seeds j = host.seeds i → outcome = outcome') := by
  refine ⟨?_, length_results host tree targets, length_results other tree targets', ?_⟩
  · rw [(run_of_agrees hsound.wellFormed hagrees targets').1]
    exact tree_of_perm hsound host hapart hperm
  · intro i j t hi hj
    obtain ⟨halike, hequal⟩ := t.alone_alike hsound.wellFormed (hagrees.after i j)
    refine ⟨_, _, results_of_apart hsound host hapart hi,
      results_of_apart hsound other (hperm.pairwise hapart Target.Apart.symm) hj, rfl, halike, ?_⟩
    intro hseed
    exact hequal (by simpa [Host.after] using hseed)

/-- Targets of two functions of one artifact, the second of which fails after it has rewritten the artifact, of a
function that is not there, and twice of no artifact. -/
def targetsApart : List Target :=
  [targetIn "link" "f", targetIn "A.json" "g", targetIn "gone" "f", targetIn "link" "h", targetIn "gone" "f"]

theorem run_perm_artifactAndLink :
    (run .plain artifactAndLink targetsApart).report.results.map (·.status) =
        [.patched, .failed, .failed, .notFound, .failed] ∧
      (run .plain artifactAndLink targetsApart).tree = (run .inTurn artifactAndLink targetsApart.reverse).tree ∧
      ∃ outcome outcome', (run .plain artifactAndLink targetsApart).report.results[1]? = some outcome ∧
        (run .inTurn artifactAndLink targetsApart.reverse).report.results[3]? = some outcome' ∧
        outcome.Alike outcome' := by
  have hsound : artifactAndLink.Sound := FileTree.sound_of_documents (by decide +kernel) (by decide +kernel)
  obtain ⟨htree, -, -, houtcome⟩ := run_perm hsound (show Host.plain.Agrees .inTurn from ⟨rfl, rfl⟩)
    (show targetsApart.Pairwise (Target.Apart artifactAndLink) by decide +kernel) (List.reverse_perm targetsApart).symm
  obtain ⟨outcome, outcome', hresult, hresult', -, halike, -⟩ := houtcome 1 3 (targetIn "A.json" "g") rfl rfl
  exact ⟨by decide +kernel, htree, outcome, outcome', hresult, hresult', halike⟩

end Batch

end Redeclare

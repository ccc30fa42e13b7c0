import Redeclare.Proofs.Frames
import Redeclare.Proofs.Locality

/-!
# Reports are true of the tree at the end

A batch reports what became of each target when it was tried, and the targets after it go on changing the tree, the same
files too, through other paths, and also when they fail in the end. What the report says still holds of the tree at the
end: a function that was declared anew is so declared, and one that was not there is not there. Whatever a request
writes, it leaves names and types alone, and it declares nothing else than every other request of the batch does.
-/

namespace Redeclare

namespace Artifact

/-- The artifact at a path can be read, and its first function with a name has a mutability. -/
def Declares (tree : FileTree) (path : Path) (function mutability : Text) : Prop :=
  ∃ document es entry, load tree path = .ok document ∧ Abi.entries document = .ok es ∧
    es.find? (Abi.isFunction (.str function)) = some entry ∧
    Members.get? Abi.mutabilityName entry = some (.str mutability)

/-- The artifact at a path can be read, and it has no function with a name. -/
def Lacks (tree : FileTree) (path : Path) (function : Text) : Prop :=
  ∃ document es, load tree path = .ok document ∧ Abi.entries document = .ok es ∧
    ∀ entry ∈ es, ¬Abi.isFunction (.str function) entry

end Artifact

/-! ## One request -/

namespace Request

variable {r : Request} {host : Host} {tree : FileTree} {path : Path} {name mutability : Text}

/-- In a tree of files whose documents have finite doubles: after a request, what is loaded through a path is what was
loaded before, or that document as the request changes it. -/
theorem load_run (hwell : tree.WellFormed) (hfinite : tree.AllDocuments Json.FiniteDouble) (r : Request)
    (host : Host) (path : Path) :
    Artifact.load (r.run host tree).tree path = Artifact.load tree path ∨
      ∃ m document es entry, r.Planned tree m document es entry ∧ Artifact.load tree path = .ok document ∧
        Artifact.load (r.run host tree).tree path = .ok (r.changed m document es) := by
  by_cases hwrote : (r.run host tree).wrote = true
  · obtain ⟨m, document, es, entry, loc, mode, content, bytes, hplanned, -, hfile, hdecode, hchanged, htree⟩ :=
      exists_decode_of_wrote hwell hfinite hwrote
    rw [htree]
    by_cases hnul : path.hasNul = true
    · rw [Artifact.load, Artifact.load, if_pos hnul, if_pos hnul]
      exact .inl rfl
    rw [Bool.not_eq_true] at hnul
    by_cases hfind : tree.find path = .ok loc
    · refine .inr ⟨m, document, es, entry, hplanned, ?_, ?_⟩
      · rw [Artifact.load_of_find hnul hfind hfile, hdecode]
      · rw [load_set hnul hfind hfile, hchanged]
    · left
      rw [Artifact.load, Artifact.load, (FileTree.rewritten_set hfile bytes).readsOthers path hfind]
  · rw [tree_of_not_wrote (Bool.eq_false_iff.mpr hwrote)]
    exact .inl rfl

/-- After a request, the entries that are found through a path are those that were found before, or those with the first
match of the request changed. -/
theorem entries_run {document : Json} {es : List Abi.Entry} (hwell : tree.WellFormed)
    (hfinite : tree.AllDocuments Json.FiniteDouble) (r : Request) (host : Host)
    (hload : Artifact.load tree path = .ok document) (hes : Abi.entries document = .ok es) :
    ∃ document' es', Artifact.load (r.run host tree).tree path = .ok document' ∧ Abi.entries document' = .ok es' ∧
      (es' = es ∨ ∃ m, r.mutability = .str m ∧
        es' = Abi.changeFirst (Abi.isFunction r.function) (Abi.declare m) es) := by
  rcases load_run hwell hfinite r host path with hsame | ⟨m, found, es', entry, hplanned, hfound, hchanged⟩
  · exact ⟨document, es, hsame.trans hload, hes, .inl rfl⟩
  · obtain rfl : document = found := Except.ok.inj (hload.symm.trans hfound)
    obtain rfl : es = es' := Except.ok.inj (hes.symm.trans hplanned.entries)
    exact ⟨_, _, hchanged, hplanned.entries_changed, .inr ⟨m, (check_eq_ok hplanned.check).2.1, rfl⟩⟩

/-- A request that asks for a mutability leaves the functions that have it already. -/
theorem declares_run (hwell : tree.WellFormed) (hfinite : tree.AllDocuments Json.FiniteDouble)
    (hm : r.mutability = .str mutability) (h : Artifact.Declares tree path name mutability) :
    Artifact.Declares (r.run host tree).tree path name mutability := by
  obtain ⟨document, es, entry, hload, hes, hfind, hget⟩ := h
  obtain ⟨document', es', hload', hes', rfl | ⟨m, hm', rfl⟩⟩ := entries_run hwell hfinite r host hload hes
  · exact ⟨document', es', entry, hload', hes', hfind, hget⟩
  · obtain rfl : m = mutability := Json.str.inj (hm'.symm.trans hm)
    rcases Abi.find?_changeFirst_of_some (Abi.isFunction_declare (.str name) m) hfind with hfirst | hfirst
    · exact ⟨document', _, entry, hload', hes', hfirst, hget⟩
    · exact ⟨document', _, _, hload', hes', hfirst, Members.get?_put_self _ _ _⟩

/-- A request adds no function. -/
theorem lacks_run (hwell : tree.WellFormed) (hfinite : tree.AllDocuments Json.FiniteDouble)
    (h : Artifact.Lacks tree path name) : Artifact.Lacks (r.run host tree).tree path name := by
  obtain ⟨document, es, hload, hes, hnone⟩ := h
  obtain ⟨document', es', hload', hes', rfl | ⟨m, -, rfl⟩⟩ := entries_run hwell hfinite r host hload hes
  · exact ⟨document', es', hload', hes', hnone⟩
  · have hfind := List.find?_eq_none.mpr hnone
    exact ⟨document', _, hload', hes', List.find?_eq_none.mp
      (Abi.find?_changeFirst_of_none (Abi.isFunction_declare (.str name) m) hfind)⟩

/-- After a request that declared its function anew, or found it so declared, the function is so declared. -/
theorem declares_of_result {outcome : Outcome} (hwell : tree.WellFormed)
    (hfinite : tree.AllDocuments Json.FiniteDouble) (hname : r.function = .str name)
    (hm : r.mutability = .str mutability) (h : (r.run host tree).result = .ok outcome)
    (hstatus : outcome.status = .patched ∨ outcome.status = .unchanged) :
    Artifact.Declares (r.run host tree).tree r.path name mutability := by
  obtain ⟨m, document, es, entry, hplanned, hload⟩ := load_of_wrote hwell (wrote_of_result h hstatus)
  obtain ⟨-, loc, mode, content, -, hfile, hdecode⟩ := Artifact.load_eq_ok hplanned.load
  obtain rfl : m = mutability := Json.str.inj ((check_eq_ok hplanned.check).2.1.symm.trans hm)
  rw [Artifact.readBack_of_finite (hplanned.finite_changed (hfinite loc mode content document hfile hdecode))] at hload
  have hfind := Abi.find?_changeFirst (Abi.isFunction_declare r.function m) hplanned.find
  rw [hname] at hfind
  exact ⟨_, _, _, hload, hname ▸ hplanned.entries_changed, hfind, Members.get?_put_self _ _ _⟩

/-- After a request that did not find its function, the function is not there. -/
theorem lacks_of_result {outcome : Outcome} (hname : r.function = .str name)
    (h : (r.run host tree).result = .ok outcome) (hstatus : outcome.status = .notFound) :
    Artifact.Lacks (r.run host tree).tree r.path name := by
  unfold run at h ⊢
  split at h
  · cases h
  · rename_i hplan
    obtain ⟨document, es, hload, hes, hnone⟩ := plan_eq_nothing hplan
    exact ⟨document, es, by simpa only [hplan] using hload, hes, List.find?_eq_none.mp (hname ▸ hnone)⟩
  · rename_i e hplan
    rcases e.commit_cases r host tree with ⟨f, hcommit⟩ | ⟨-, -, -, -, -, -, -, hresult⟩
    · rw [hcommit] at h
      cases h
    · rw [hresult, Edit.finish] at h
      split at h
      · cases h
      · rw [status_of_make h, Edit.status] at hstatus
        split at hstatus <;> cases hstatus

/-- The outcome of a request for a function is of its path and its function. -/
theorem target_of_result {outcome : Outcome} (hname : r.function = .str name)
    (h : (r.run host tree).result = .ok outcome) : outcome.path = r.path ∧ outcome.function = name := by
  unfold run at h
  split at h
  · cases h
  · simp only [hname] at h
    exact target_of_make h
  · rename_i e _
    rcases e.commit_cases r host tree with ⟨f, hcommit⟩ | ⟨-, -, -, -, -, -, -, hresult⟩
    · rw [hcommit] at h
      cases h
    · rw [hresult, Edit.finish] at h
      split at h
      · cases h
      · rw [hname] at h
        exact target_of_make h

end Request

/-! ## Batches -/

/-- What an outcome says of its target holds in a tree: the function is declared as batches declare it, or is not there.
A failure says nothing of the tree. -/
def Outcome.HoldsIn (tree : FileTree) (o : Outcome) : Prop :=
  ((o.status = .patched ∨ o.status = .unchanged) → Artifact.Declares tree o.path o.function Target.mutability) ∧
    (o.status = .notFound → Artifact.Lacks tree o.path o.function)

namespace Batch

variable {tree : FileTree} {t : Target}

/-- What the outcome of a target says holds in the tree that the target leaves. -/
theorem holdsIn_record (hwell : tree.WellFormed) (hfinite : tree.AllDocuments Json.FiniteDouble)
    (host : Host) (t : Target) :
    (t.record (t.request.run host tree).result).HoldsIn (t.request.run host tree).tree := by
  cases hresult : (t.request.run host tree).result with
  | error f =>
    constructor
    · rintro (hstatus | hstatus) <;> cases hstatus
    · intro hstatus
      cases hstatus
  | ok outcome =>
    obtain ⟨hpath, hfunction⟩ := Request.target_of_result rfl hresult
    constructor
    · intro hstatus
      rw [Target.record, hpath, hfunction]
      exact Request.declares_of_result hwell hfinite rfl rfl hresult hstatus
    · intro hstatus
      rw [Target.record, hpath, hfunction]
      exact Request.lacks_of_result rfl hresult hstatus

/-- Requests of batches keep what an outcome says. -/
theorem holdsIn_run {o : Outcome} (hwell : tree.WellFormed) (hfinite : tree.AllDocuments Json.FiniteDouble)
    (host : Host) (t : Target) (h : o.HoldsIn tree) : o.HoldsIn (t.request.run host tree).tree :=
  ⟨fun hstatus => Request.declares_run hwell hfinite rfl (h.1 hstatus),
    fun hstatus => Request.lacks_run hwell hfinite (h.2 hstatus)⟩

/-- In a tree of files whose documents have finite doubles, for every batch, with targets of the same file or the same
function, through whatever paths, and with failures among them: what each outcome of the report says of its target holds
in the tree at the end. -/
theorem holdsIn_of_mem_results (hwell : tree.WellFormed) (hfinite : tree.AllDocuments Json.FiniteDouble)
    (host : Host) (targets : List Target) :
    ∀ o ∈ (run host tree targets).report.results, o.HoldsIn (run host tree targets).tree := by
  induction targets generalizing host tree with
  | nil => exact fun o ho => absurd ho List.not_mem_nil
  | cons t rest ih =>
    have hwell' := (t.request.alike_run hwell host).shape.wellFormed hwell
    have hfinite' : FileTree.AllDocuments Json.FiniteDouble (t.request.run host tree).tree :=
      Request.finite_run hwell hfinite
    intro o ho
    rw [results_run_cons] at ho
    rw [tree_run_cons]
    rcases List.mem_cons.mp ho with rfl | ho
    · -- the targets after this one keep what its outcome says
      have hrecord := holdsIn_record hwell hfinite host t
      generalize t.record (t.request.run host tree).result = o at hrecord
      refine (run_keeps (p := fun tree => tree.AllDocuments Json.FiniteDouble ∧ o.HoldsIn tree) ?_ hwell'
        ⟨hfinite', hrecord⟩).2
      intro host tree hwell h u _
      exact ⟨Request.finite_run hwell h.1, holdsIn_run hwell h.1 host u h.2⟩
    · exact ih hwell' hfinite' (host.after 1) o ho

/-- Targets of the artifact and of its link; that of `g` fails after it has rewritten the artifact. -/
def targetsThroughLink : List Target :=
  [targetIn "link" "f", targetIn "A.json" "g", targetIn "link" "h", targetIn "A.json" "f"]

theorem holdsIn_of_mem_results_artifactAndLink :
    (run .plain artifactAndLink targetsThroughLink).report.results.map (·.status) =
        [.patched, .failed, .notFound, .unchanged] ∧
      Artifact.Declares (run .plain artifactAndLink targetsThroughLink).tree ⟨.relative, [Text.ofString "link"]⟩
        (Text.ofString "f") Target.mutability ∧
      Artifact.Lacks (run .plain artifactAndLink targetsThroughLink).tree ⟨.relative, [Text.ofString "link"]⟩
        (Text.ofString "h") := by
  have hfinite : artifactAndLink.AllDocuments Json.FiniteDouble :=
    FileTree.allDocuments_of_documents (show ∀ d ∈ artifactAndLink.documents, d.Finite by decide +kernel)
  have hholds := holdsIn_of_mem_results (show artifactAndLink.WellFormed by decide +kernel) hfinite .plain
    targetsThroughLink
  obtain ⟨hstatuses, ⟨patched, hpatched, hpath, hfunction, hstatus⟩,
    ⟨missing, hmissing, hpath', hfunction', hstatus'⟩⟩ :
      (run .plain artifactAndLink targetsThroughLink).report.results.map (·.status) =
          [.patched, .failed, .notFound, .unchanged] ∧
        (∃ o ∈ (run .plain artifactAndLink targetsThroughLink).report.results,
          o.path = ⟨.relative, [Text.ofString "link"]⟩ ∧ o.function = Text.ofString "f" ∧ o.status = .patched) ∧
        ∃ o ∈ (run .plain artifactAndLink targetsThroughLink).report.results,
          o.path = ⟨.relative, [Text.ofString "link"]⟩ ∧ o.function = Text.ofString "h" ∧ o.status = .notFound := by
    decide +kernel
  refine ⟨hstatuses, ?_, ?_⟩
  · rw [← hpath, ← hfunction]
    exact (hholds patched hpatched).1 (.inl hstatus)
  · rw [← hpath', ← hfunction']
    exact (hholds missing hmissing).2 hstatus'

end Batch

end Redeclare

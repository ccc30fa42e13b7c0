import Redeclare.Proofs.Batches

/-!
# One file at a time

A request acts on the content of one file, the one that its path leads to. What it makes of the content, and what comes
of it, depends on that content and on the locations of the entries, which leave room for a new file or not; nothing else
in the tree plays a part. Where the path leads to no file, the tree stays as it is. After a request the tree is alike,
so paths lead where they led, and a batch can be followed file by file.
-/

namespace Redeclare

/-! ## The file that a path leads to -/

/-- What a file that is there holds after its replacement by a text on a host, or why it is not replaced. -/
def FileTree.replacementOn (tree : FileTree) (host : Host) (target : Location) (text : Text) :
    Except Failure Utf8.Bytes :=
  replacement host.fault (host.seeds 0) tree target text

theorem FileTree.replacementOn_congr {a b : FileTree} {host : Host} {target : Location}
    (h : a.entries.map (·.1) = b.entries.map (·.1)) : a.replacementOn host target = b.replacementOn host target :=
  replacement_congr h

namespace Artifact

variable {tree : FileTree} {path : Path} {loc : Location} {mode : Nat} {content : Utf8.Bytes}

/-- The file that a path leads to, or why it cannot be read. -/
def locate (tree : FileTree) (path : Path) : Except Failure Location :=
  if path.hasNul then .error .nul
  else
    match tree.find path with
    | .error e => .error (.system e path)
    | .ok loc =>
      match tree.entry? loc with
      | some (.file _ _) => .ok loc
      | some _ => .error (.system .isADirectory path)
      | none => .error (.system .notFound path)

theorem locate_eq_ok_iff : locate tree path = .ok loc ↔
    path.hasNul = false ∧ tree.find path = .ok loc ∧ ∃ mode content, tree.entry? loc = some (.file mode content) := by
  unfold locate
  constructor
  · intro h
    split at h
    · cases h
    rename_i hnul
    split at h
    · cases h
    rename_i found hfind
    split at h
    · rename_i mode content hfile
      cases h
      exact ⟨by simpa using hnul, hfind, mode, content, hfile⟩
    · cases h
    · cases h
  · rintro ⟨hnul, hfind, mode, content, hfile⟩
    simp [hnul, hfind, hfile]

/-- What is loaded through a path is in the file that it leads to. -/
theorem load_of_locate (h : locate tree path = .ok loc) (hfile : tree.entry? loc = some (.file mode content)) :
    load tree path = decode content := by
  obtain ⟨hnul, hfind, -⟩ := locate_eq_ok_iff.mp h
  exact load_of_find hnul hfind hfile

/-- Nothing is loaded through a path that leads to no file. -/
theorem load_of_locate_error {e : Failure} (h : locate tree path = .error e) : load tree path = .error e := by
  unfold locate at h
  unfold load FileTree.read
  by_cases hnul : path.hasNul = true
  · rw [if_pos hnul] at h ⊢
    cases h
    rfl
  rw [if_neg hnul] at h ⊢
  cases hfind : tree.find path with
  | error errno =>
    rw [hfind] at h
    cases h
    rfl
  | ok loc =>
    simp only [hfind] at h
    cases hentry : tree.entry? loc with
    | none =>
      rw [hentry] at h
      cases h
      simp only [hentry]
    | some entry =>
      rw [hentry] at h
      cases entry with
      | file mode content => cases h
      | link target =>
        cases h
        simp only [hentry]
      | dir =>
        cases h
        simp only [hentry]

/-- In trees of one shape, paths lead to the same files. -/
theorem locate_congr {a b : FileTree} (h : FileTree.SameShape a b) (path : Path) : locate a path = locate b path := by
  unfold locate
  rw [h.find path]
  cases b.find path with
  | error e => rfl
  | ok loc =>
    rcases h.entry loc with heq | ⟨m, c, m', c', ha, hb⟩
    · simp only [heq]
    · simp only [ha, hb]

/-- In a tree of files, a document without long integers is stored over a file by the replacement of the file. -/
theorem store_of_file (hwell : tree.WellFormed) (h : locate tree path = .ok loc)
    (hfile : tree.entry? loc = some (.file mode content)) (host : Host) {document : Json}
    (hshort : document.hasLongWhole = false) :
    store host tree path document =
      match tree.replacementOn host loc document.render with
      | .error e => (tree, .error e)
      | .ok bytes => (tree.set loc (.file mode bytes), .ok (.wrote ⟨.root, loc⟩ document.render.length)) := by
  obtain ⟨hnul, hfind, -⟩ := locate_eq_ok_iff.mp h
  have hfailure := FileTree.failure_replaceAt hwell hfile host.fault (host.seeds 0) document.render
  have htree := FileTree.tree_replaceAt hwell hfile host.fault (host.seeds 0) document.render
  unfold store FileTree.replacementOn
  rw [FileTree.destination_of_find hwell hnul hfind]
  simp only [hshort, hfailure, htree, Bool.false_eq_true, if_false]
  cases FileTree.replacement host.fault (host.seeds 0) tree loc document.render <;> rfl

end Artifact

/-! ## Requests -/

namespace Request

variable {r : Request} {host : Host} {tree : FileTree} {loc : Location} {mode : Nat}
  {content : Utf8.Bytes}

/-- What a request makes of the content of the file that it reads, and its result, with so much room for nested calls;
`replace` tells what a text that replaces the file leaves in it, or why it does not replace it. -/
def revise (r : Request) (room : Nat) (replace : Text → Except Failure Utf8.Bytes) (content : Utf8.Bytes) :
    Utf8.Bytes × Except Failure Outcome :=
  match r.planFrom (Artifact.decode content) with
  | .error e => (content, .error e)
  | .ok .nothing => (content, Outcome.make r.path r.function .notFound .null none)
  | .ok (.edit e) =>
    match replace e.document.render with
    | .error f => (content, .error f)
    | .ok bytes => (bytes, e.finish r room)

/-- The plan for a request is made from the content of the file that its path leads to. -/
theorem plan_of_file (h : Artifact.locate tree r.path = .ok loc) (hfile : tree.entry? loc = some (.file mode content)) :
    r.plan tree = r.planFrom (Artifact.decode content) := by
  rw [plan, Artifact.load_of_locate h hfile]
  rfl

/-- What is planned of a content has no long integers. -/
theorem hasLongWhole_of_planFrom {e : Edit} (h : r.planFrom (Artifact.decode content) = .ok (.edit e)) :
    e.document.hasLongWhole = false := by
  obtain ⟨m, document, es, entry, hdecode, hchanges, rfl⟩ := planFrom_eq_edit h
  exact (hchanges.readable_changed (Artifact.readable_of_decode hdecode)).hasLongWhole_eq_false

/-- In a tree of files, a request revises the content of the file that its path leads to, and does nothing else. -/
theorem run_of_file (hwell : tree.WellFormed) (h : Artifact.locate tree r.path = .ok loc)
    (hfile : tree.entry? loc = some (.file mode content)) (host : Host) :
    (r.run host tree).tree = tree.set loc (.file mode (r.revise host.room (tree.replacementOn host loc) content).1) ∧
      (r.run host tree).result = (r.revise host.room (tree.replacementOn host loc) content).2 := by
  have hsame : tree.set loc (.file mode content) = tree := FileTree.set_of_entry? (FileTree.ne_nil_of_file hfile) hfile
  rw [run, revise, plan_of_file h hfile]
  cases hplan : r.planFrom (Artifact.decode content) with
  | error e => exact ⟨hsame.symm, rfl⟩
  | ok plan =>
    cases plan with
    | nothing => exact ⟨hsame.symm, rfl⟩
    | edit e =>
      simp only [Edit.commit, Edit.finish, Artifact.store_of_file hwell h hfile host (hasLongWhole_of_planFrom hplan)]
      cases tree.replacementOn host loc e.document.render with
      | error f => exact ⟨hsame.symm, rfl⟩
      | ok bytes => cases e.selector host.room <;> exact ⟨rfl, rfl⟩

/-- A request whose path leads to no file does nothing. Its failure is that of its check, or why there is no file. -/
theorem run_of_locate_error {e : Failure} (h : Artifact.locate tree r.path = .error e) (host : Host) :
    (r.run host tree).tree = tree ∧
      (r.run host tree).result =
        match r.check with
        | .error f => .error f
        | .ok _ => .error e := by
  rw [run, plan, Artifact.load_of_locate_error h]
  cases r.check <;> exact ⟨rfl, rfl⟩

/-- After a request in a tree of files, the tree is alike. -/
theorem alike_run (r : Request) (hwell : tree.WellFormed) (host : Host) :
    FileTree.Alike tree (r.run host tree).tree := by
  cases hlocate : Artifact.locate tree r.path with
  | error e =>
    rw [(run_of_locate_error hlocate host).1]
    exact .refl tree
  | ok loc =>
    obtain ⟨-, -, mode, content, hfile⟩ := Artifact.locate_eq_ok_iff.mp hlocate
    rw [(run_of_file hwell hlocate hfile host).1]
    exact FileTree.alike_set hfile mode _

/-- A request whose path does not lead to a location leaves what is there. -/
theorem entry?_run_of_find_ne (hwell : tree.WellFormed) (hfind : tree.find r.path ≠ .ok loc)
    (host : Host) : (r.run host tree).tree.entry? loc = tree.entry? loc := by
  cases hlocate : Artifact.locate tree r.path with
  | error e => rw [(run_of_locate_error hlocate host).1]
  | ok found =>
    obtain ⟨-, hfound, mode, content, hfile⟩ := Artifact.locate_eq_ok_iff.mp hlocate
    have hne : loc ≠ found := by
      rintro rfl
      exact hfind hfound
    rw [(run_of_file hwell hlocate hfile host).1, FileTree.entry?_set_of_ne hne]

/-- In trees that are alike and have the same at the location that its path leads to, a request has the same result and
leaves the same there. -/
theorem run_congr {a b : FileTree} (ha : a.WellFormed) (halike : FileTree.Alike a b)
    (hentry : a.entry? loc = b.entry? loc) (hfind : a.find r.path = .ok loc) (host : Host) :
    (r.run host a).result = (r.run host b).result ∧
      (r.run host a).tree.entry? loc = (r.run host b).tree.entry? loc := by
  have hlocate := Artifact.locate_congr halike.shape r.path
  cases hfound : Artifact.locate a r.path with
  | error e =>
    obtain ⟨htreea, hresulta⟩ := run_of_locate_error hfound host
    obtain ⟨htreeb, hresultb⟩ := run_of_locate_error (hlocate ▸ hfound) host
    rw [hresulta, hresultb, htreea, htreeb]
    exact ⟨rfl, hentry⟩
  | ok found =>
    obtain ⟨-, hfind', mode, content, hfile⟩ := Artifact.locate_eq_ok_iff.mp hfound
    obtain rfl : found = loc := Except.ok.inj (hfind'.symm.trans hfind)
    have hne := FileTree.ne_nil_of_file hfile
    obtain ⟨htreea, hresulta⟩ := run_of_file ha hfound hfile host
    obtain ⟨htreeb, hresultb⟩ :=
      run_of_file (halike.shape.wellFormed ha) (hlocate ▸ hfound) (hentry ▸ hfile) host
    rw [hresulta, hresultb, htreea, htreeb, FileTree.replacementOn_congr halike.locations,
      FileTree.entry?_set_self hne, FileTree.entry?_set_self hne]
    exact ⟨rfl, rfl⟩

/-- Of the numbers that are drawn, a request depends on the first one only. -/
theorem run_of_seed {other : Host} (hagrees : host.Agrees other) (hseed : other.seeds 0 = host.seeds 0) :
    r.run other tree = r.run host tree := by
  simp only [run, Edit.commit, Artifact.store, hagrees.fault, hagrees.room, hseed]

/-- Where texts replace a content by the same, or fail to replace it for reasons that are alike, the results are alike
and the same is left. -/
theorem revise_alike {replace replace' : Text → Except Failure Utf8.Bytes} (room : Nat)
    (h : ∀ text, FileTree.AlikeResults (replace text) (replace' text)) (content : Utf8.Bytes) :
    (r.revise room replace' content).1 = (r.revise room replace content).1 ∧
      FileTree.AlikeResults (r.revise room replace content).2 (r.revise room replace' content).2 := by
  unfold revise
  cases r.planFrom (Artifact.decode content) with
  | error e => exact ⟨rfl, .same _⟩
  | ok plan =>
    cases plan with
    | nothing => exact ⟨rfl, .same _⟩
    | edit e =>
      simp only
      have halike := h e.document.render
      generalize replace e.document.render = new at halike ⊢
      generalize replace' e.document.render = new' at halike ⊢
      cases halike with
      | same => exact ⟨rfl, .same _⟩
      | error hfailures => exact ⟨rfl, .error hfailures⟩

/-- In a tree of files, on hosts that differ in the numbers that are drawn, a request leaves the same tree and the
results are alike. -/
theorem run_of_agrees {other : Host} (r : Request) (hwell : tree.WellFormed) (hagrees : host.Agrees other) :
    (r.run other tree).tree = (r.run host tree).tree ∧
      FileTree.AlikeResults (r.run host tree).result (r.run other tree).result := by
  cases hlocate : Artifact.locate tree r.path with
  | error e =>
    obtain ⟨htree, hresult⟩ := run_of_locate_error hlocate host
    obtain ⟨htree', hresult'⟩ := run_of_locate_error hlocate other
    rw [htree, htree', hresult, hresult']
    exact ⟨rfl, .same _⟩
  | ok loc =>
    obtain ⟨-, -, mode, content, hfile⟩ := Artifact.locate_eq_ok_iff.mp hlocate
    obtain ⟨htree, hresult⟩ := run_of_file hwell hlocate hfile host
    obtain ⟨htree', hresult'⟩ := run_of_file hwell hlocate hfile other
    have hreplace : ∀ text,
        FileTree.AlikeResults (tree.replacementOn host loc text) (tree.replacementOn other loc text) := by
      intro text
      rw [FileTree.replacementOn, FileTree.replacementOn, hagrees.fault]
      exact FileTree.replacement_alike host.fault _ _ tree loc text
    obtain ⟨hcontent, halike⟩ := revise_alike (r := r) host.room hreplace content
    rw [htree, htree', hresult, hresult', hagrees.room, hcontent]
    exact ⟨rfl, halike⟩

end Request

/-! ## The documents in a tree -/

/-- Every document in a file of the tree satisfies `p` in all its values. -/
def FileTree.AllDocuments (p : Json → Prop) (tree : FileTree) : Prop :=
  ∀ loc mode content document, tree.entry? loc = some (.file mode content) →
    Artifact.decode content = .ok document → document.All p

/-- The documents in the files of a tree. -/
def FileTree.documents (tree : FileTree) : List Json :=
  tree.entries.filterMap fun e =>
    match e.2 with
    | .file _ content => (Artifact.decode content).toOption
    | _ => none

/-- What holds of all values in the documents of a tree shows in the list of the documents. -/
theorem FileTree.allDocuments_of_documents {p : Json → Prop} {tree : FileTree} (h : ∀ d ∈ tree.documents, d.All p) :
    tree.AllDocuments p := by
  intro loc mode content document hfile hdecode
  have hmem : (loc, Entry.file mode content) ∈ tree.entries :=
    mem_of_lookup (entry?_of_ne_nil (ne_nil_of_file hfile) ▸ hfile)
  exact h document (List.mem_filterMap.mpr ⟨_, hmem, by simp only [hdecode, Except.toOption]⟩)

namespace Request

variable {r : Request} {host : Host} {tree : FileTree}

/-- In a tree of files whose documents have finite doubles, what a request wrote is read back as the changed
document. -/
theorem exists_decode_of_wrote (hwell : tree.WellFormed) (hfinite : tree.AllDocuments Json.FiniteDouble)
    (h : (r.run host tree).wrote = true) :
    ∃ m document es entry loc mode content bytes, r.Planned tree m document es entry ∧
      tree.find r.path = .ok loc ∧ tree.entry? loc = some (.file mode content) ∧
      Artifact.decode content = .ok document ∧ Artifact.decode bytes = .ok (r.changed m document es) ∧
      (r.run host tree).tree = tree.set loc (.file mode bytes) := by
  obtain ⟨m, document, es, entry, loc, mode, content, bytes, hplanned, -, hfind, hfile, hdecode, hbytes, htree, -⟩ :=
    exists_of_wrote hwell h
  exact ⟨m, document, es, entry, loc, mode, content, bytes, hplanned, hfind, hfile, hdecode,
    decode_changed hdecode hplanned.entries (hfinite loc mode content document hfile hdecode) hbytes, htree⟩

/-- A request keeps what holds of all values in the documents of a tree of files, if they have finite doubles. -/
theorem allDocuments_run {p : Json → Prop} (hkept : Abi.Kept p) (hstr : ∀ m ∈ Abi.mutabilities, p (.str m))
    (hwell : tree.WellFormed) (hfinite : tree.AllDocuments Json.FiniteDouble) (hall : tree.AllDocuments p) :
    (r.run host tree).tree.AllDocuments p := by
  by_cases hwrote : (r.run host tree).wrote = true
  · obtain ⟨m, document, es, entry, loc, mode, content, bytes, hplanned, -, hfile, hdecode, hbytes, htree⟩ :=
      exists_decode_of_wrote hwell hfinite hwrote
    intro other mode' content' document' hfile' hdecode'
    rw [htree] at hfile'
    by_cases hother : other = loc
    · subst hother
      rw [FileTree.entry?_set_self (FileTree.ne_nil_of_file hfile)] at hfile'
      cases hfile'
      obtain rfl := Except.ok.inj (hbytes.symm.trans hdecode')
      exact all_changed hkept (hstr m (check_eq_ok hplanned.check).2.2) hplanned.entries
        (hall other mode content document hfile hdecode)
    · rw [FileTree.entry?_set_of_ne hother] at hfile'
      exact hall other mode' content' document' hfile' hdecode'
  · rw [tree_of_not_wrote (Bool.eq_false_iff.mpr hwrote)]
    exact hall

/-- No infinite double comes in. -/
theorem finite_run (hwell : tree.WellFormed) (hfinite : tree.AllDocuments Json.FiniteDouble) :
    (r.run host tree).tree.AllDocuments Json.FiniteDouble :=
  allDocuments_run Abi.kept_finite (fun _ _ => trivial) hwell hfinite hfinite

end Request

/-! ## Batches -/

/-- The outcome that is recorded of a target whose request has a result. -/
def Target.record (t : Target) : Except Failure Outcome → Outcome
  | .ok outcome => outcome
  | .error f => Outcome.ofFailure t.path t.function f

/-- Two errors that are recorded are the same, or tell of one refusal to open a new file beside a target by two
candidates for its name. -/
inductive AlikeErrors : Option Text → Option Text → Prop
  | same (error : Option Text) : AlikeErrors error error
  | unopened (e : Errno) (target : Location) (n m : Nat) :
      AlikeErrors (some (Failure.summary (.unopened e (FileTree.candidatePath target n))))
        (some (Failure.summary (.unopened e (FileTree.candidatePath target m))))

/-- Two outcomes that are the same, but for the name of a new file in their errors. -/
structure Outcome.Alike (a b : Outcome) : Prop where
  path : a.path = b.path
  function : a.function = b.function
  status : a.status = b.status
  previous : a.previous = b.previous
  selector : a.selector = b.selector
  error : AlikeErrors a.error b.error

theorem Outcome.Alike.refl (o : Outcome) : o.Alike o := ⟨rfl, rfl, rfl, rfl, rfl, .same _⟩

/-- The outcomes of results that are alike are alike. -/
theorem Target.record_alike (t : Target) {x y : Except Failure Outcome} (h : FileTree.AlikeResults x y) :
    (t.record x).Alike (t.record y) := by
  cases h with
  | same => exact .refl _
  | error hfailures =>
    cases hfailures with
    | same => exact .refl _
    | unopened e target n m => exact ⟨rfl, rfl, rfl, rfl, rfl, .unopened e target n m⟩

namespace Batch

variable {host : Host} {tree : FileTree} {t : Target} {rest targets : List Target}

/-- A tree with an artifact and a link to it. Its function `g` takes a tuple with no list of components. -/
def artifactAndLink : FileTree where
  entries :=
    [([Text.ofString "A.json"],
        .file 0o640 (Utf8.encodeChars ("\x7b\"abi\":[\x7b\"type\":\"function\",\"name\":\"f\"\x7d," ++
          "\x7b\"type\":\"function\",\"name\":\"g\"," ++
            "\"inputs\":[\x7b\"type\":\"tuple\",\"components\":null\x7d]\x7d]\x7d").toList)),
      ([Text.ofString "link"], .link (Text.ofString "./A.json"))]
  here := []

/-- The function with a name in the artifact with a name. -/
def targetIn (artifact function : String) : Target := ⟨⟨.relative, [Text.ofString artifact]⟩, Text.ofString function⟩

theorem outcome_tryTarget (host : Host) (tree : FileTree) (t : Target) :
    (tryTarget host tree t).2.2 = t.record (t.request.run host tree).result := by
  unfold tryTarget
  obtain ⟨after, events, result⟩ := t.request.run host tree
  cases result <;> rfl

theorem tree_run_cons :
    (run host tree (t :: rest)).tree = (run (host.after 1) (t.request.run host tree).tree rest).tree := by
  rw [← tree_tryTarget]
  rfl

theorem results_run_cons :
    (run host tree (t :: rest)).report.results =
      t.record (t.request.run host tree).result ::
        (run (host.after 1) (t.request.run host tree).tree rest).report.results := by
  rw [← tree_tryTarget, ← outcome_tryTarget]
  rfl

/-- A batch has one outcome for each target. -/
theorem length_results (host : Host) (tree : FileTree) (targets : List Target) :
    (run host tree targets).report.results.length = targets.length := by
  induction targets generalizing host tree with
  | nil => rfl
  | cons t rest ih => rw [results_run_cons, List.length_cons, List.length_cons, ih]

/-- What every request in a tree of files keeps, a batch keeps. -/
theorem run_keeps {p : FileTree → Prop}
    (hstep : ∀ host tree, tree.WellFormed → p tree → ∀ t ∈ targets, p (t.request.run host tree).tree)
    (hwell : tree.WellFormed) (h : p tree) : p (run host tree targets).tree := by
  induction targets generalizing host tree with
  | nil => exact h
  | cons t rest ih =>
    rw [tree_run_cons]
    refine ih ?_ ((t.request.alike_run hwell host).shape.wellFormed hwell) ?_
    · exact fun host tree hwell h u hu => hstep host tree hwell h u (List.mem_cons_of_mem t hu)
    · exact hstep host tree hwell h t List.mem_cons_self

/-- After a batch in a tree of files, the tree is alike. -/
theorem alike_run (hwell : tree.WellFormed) (host : Host) (targets : List Target) :
    FileTree.Alike tree (run host tree targets).tree :=
  run_keeps (fun host _ hwell h t _ => h.trans (t.request.alike_run hwell host)) hwell (.refl tree)

/-- In a tree of files, on hosts that differ in the numbers that are drawn, a batch leaves the same tree and its
outcomes are alike. By induction on the targets: each of them leaves the same tree on both hosts. -/
theorem run_of_agrees {other : Host} (hwell : tree.WellFormed) (hagrees : host.Agrees other) (targets : List Target) :
    (run other tree targets).tree = (run host tree targets).tree ∧
      List.Forall₂ Outcome.Alike (run host tree targets).report.results (run other tree targets).report.results := by
  induction targets generalizing host other tree with
  | nil => exact ⟨rfl, .nil⟩
  | cons t rest ih =>
    obtain ⟨htree, hresult⟩ := t.request.run_of_agrees hwell hagrees
    have hwell' := (t.request.alike_run hwell host).shape.wellFormed hwell
    obtain ⟨hlater, hresults⟩ := ih hwell' (hagrees.after 1 1)
    rw [tree_run_cons, tree_run_cons, results_run_cons, results_run_cons, htree]
    exact ⟨hlater, .cons (t.record_alike hresult) hresults⟩

end Batch

end Redeclare

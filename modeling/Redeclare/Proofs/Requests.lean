import Redeclare.Proofs.Documents
import Redeclare.Proofs.Edits
import Redeclare.Proofs.Readable
import Redeclare.Proofs.Replacing

/-!
# Requests

A request leaves the tree as it was, or replaces one file by the document with the first matching entry changed; it told
of a write exactly in the second case. In a tree of files, the file is the one that the request read, and what is read
back is the changed document, unless that holds a number that JSON does not have.
-/

namespace Redeclare

theorem eq_ok_of_toOption {ε α : Type} {x : Except ε α} {a : α} (h : x.toOption = some a) : x = .ok a := by
  cases x with
  | error e => cases h
  | ok b =>
    cases h
    rfl

/-- A run told of a file that it replaced. -/
def Run.wrote {α : Type} (run : Run α) : Bool :=
  run.events.any fun
    | .wrote _ _ => true
    | _ => false

/-- A run tells of a write when it told of that of some file. -/
theorem Run.wrote_iff {α : Type} {run : Run α} :
    run.wrote = true ↔ ∃ path length, .wrote path length ∈ run.events := by
  unfold Run.wrote
  rw [List.any_eq_true]
  constructor
  · rintro ⟨event, hevent, hwrote⟩
    cases event with
    | wrote path length => exact ⟨path, length, hevent⟩
    | _ => cases hwrote
  · rintro ⟨path, length, hevent⟩
    exact ⟨_, hevent, rfl⟩

namespace Artifact

/-- What was loaded is in a file that the path leads to. -/
theorem load_eq_ok {tree : FileTree} {path : Path} {document : Json} (h : load tree path = .ok document) :
    path.hasNul = false ∧ ∃ loc mode content, tree.find path = .ok loc ∧
      tree.entry? loc = some (.file mode content) ∧ decode content = .ok document := by
  unfold load at h
  split at h
  · cases h
  rename_i hnul
  split at h
  · cases h
  rename_i content hread
  unfold FileTree.read at hread
  split at hread
  · cases hread
  rename_i loc hfind
  split at hread
  · rename_i mode found hfile
    cases hread
    exact ⟨by simpa using hnul, loc, mode, _, hfind, hfile, h⟩
  · cases hread
  · cases hread

/-- What is in a file is loaded through a path that leads to it. -/
theorem load_of_find {tree : FileTree} {path : Path} {loc : Location} {mode : Nat} {content : Utf8.Bytes}
    (hnul : path.hasNul = false) (hfind : tree.find path = .ok loc)
    (hfile : tree.entry? loc = some (.file mode content)) :
    load tree path = decode content := by
  apply load_of_read hnul
  simp only [FileTree.read, hfind, hfile]

/-- Every document that was loaded is readable. -/
theorem readable_of_load {tree : FileTree} {path : Path} {document : Json} (h : load tree path = .ok document) :
    document.Readable := by
  obtain ⟨-, loc, mode, content, -, -, hdecode⟩ := load_eq_ok h
  exact readable_of_decode hdecode

theorem entries_eq_ok {document : Json} {name : Text} {es : List Abi.Entry} (h : entries document name = .ok es) :
    Abi.entries document = .ok es := by
  unfold entries at h
  split at h
  · cases h
  · rename_i found hfound
    cases h
    exact hfound

end Artifact

namespace Request

variable {r : Request} {host : Host} {tree : FileTree} {m : Text} {document : Json}
  {es : List Abi.Entry} {entry : Abi.Entry}

/-! ## Planning -/

/-- A request that passes its check has a name and one of the mutabilities. -/
theorem check_eq_ok (h : r.check = .ok m) :
    r.function.isEmpty = false ∧ r.mutability = .str m ∧ m ∈ Abi.mutabilities := by
  unfold check at h
  split at h
  · cases h
  rename_i hname
  split at h
  · rename_i t ht
    split at h
    · rename_i hmem
      cases h
      exact ⟨by simpa using hname, ht, hmem⟩
    · cases h
  · cases h

/-- What is to be done for a request with what was loaded for it. -/
def planFrom (r : Request) (loaded : Except Failure Json) : Except Failure Plan :=
  match r.check with
  | .error e => .error e
  | .ok mutability =>
    match loaded with
    | .error e => .error e
    | .ok document =>
      match Artifact.entries document r.path.toText with
      | .error e => .error e
      | .ok entries => .ok (r.planFor mutability document entries)

theorem plan_eq_planFrom (r : Request) (tree : FileTree) : r.plan tree = r.planFrom (Artifact.load tree r.path) := rfl

/-- The document with the first matching entry changed. -/
def changed (r : Request) (m : Text) (document : Json) (es : List Abi.Entry) : Json :=
  Abi.withEntries document (Abi.changeFirst (Abi.isFunction r.function) (Abi.declare m) es)

/-- What is asked of all values of a document is asked of the changed one as well. -/
theorem all_changed {p : Json → Prop} (hkept : Abi.Kept p) (hstr : p (.str m)) (hes : Abi.entries document = .ok es)
    (hall : document.All p) : (r.changed m document es).All p := by
  have hentries := Abi.all_of_entries hes hall
  refine Abi.all_withEntries hkept hall fun entry hentry => ?_
  rcases Abi.mem_changeFirst hentry with hentry | ⟨old, hold, rfl⟩
  · exact hentries entry hentry
  · exact Abi.all_put_mutability hkept (Json.all_str.mpr hstr) (hentries old hold)

/-- A request has something to change in a document: what the change is made from. -/
structure Changes (r : Request) (m : Text) (document : Json) (es : List Abi.Entry) (entry : Abi.Entry) : Prop where
  check : r.check = .ok m
  entries : Abi.entries document = .ok es
  find : es.find? (Abi.isFunction r.function) = some entry

/-- The change that is planned. -/
def edit (r : Request) (m : Text) (document : Json) (es : List Abi.Entry) (entry : Abi.Entry) : Edit where
  document := r.changed m document es
  entry := Abi.declare m entry
  mutability := m
  previous := (Members.get? Abi.mutabilityName entry).getD .null
  count := es.countP (Abi.isFunction r.function)

/-- What is planned when there is something to change. -/
theorem Changes.planFrom (h : r.Changes m document es entry) :
    r.planFrom (.ok document) = .ok (.edit (r.edit m document es entry)) := by
  simp only [Request.planFrom, h.check, Artifact.entries, h.entries, planFor, h.find]
  rfl

/-- When a document is readable, the changed one is. -/
theorem Changes.readable_changed (h : r.Changes m document es entry) (hreadable : document.Readable) :
    (r.changed m document es).Readable :=
  all_changed Abi.kept_readable ⟨trivial, trivial⟩ h.entries hreadable

/-- A change is planned of a document that was loaded, when there is something to change in it. -/
theorem planFrom_eq_edit {loaded : Except Failure Json} {e : Edit} (h : r.planFrom loaded = .ok (.edit e)) :
    ∃ m document es entry, loaded = .ok document ∧ r.Changes m document es entry ∧ e = r.edit m document es entry := by
  unfold planFrom at h
  split at h
  · cases h
  rename_i m hcheck
  split at h
  · cases h
  rename_i document
  split at h
  · cases h
  rename_i es hes
  rw [Except.ok.injEq] at h
  unfold planFor at h
  simp only at h
  split at h
  · cases h
  · rename_i entry hfind
    cases h
    exact ⟨m, document, es, entry, rfl, ⟨hcheck, Artifact.entries_eq_ok hes, hfind⟩, rfl⟩

/-- What a plan to change an entry is made from. -/
structure Planned (r : Request) (tree : FileTree) (m : Text) (document : Json) (es : List Abi.Entry)
    (entry : Abi.Entry) : Prop where
  check : r.check = .ok m
  load : Artifact.load tree r.path = .ok document
  entries : Abi.entries document = .ok es
  find : es.find? (Abi.isFunction r.function) = some entry

/-- A plan to change an entry is made from a document that was loaded, and from its first matching entry. -/
theorem plan_eq_edit {e : Edit} (h : r.plan tree = .ok (.edit e)) :
    ∃ m document es entry, r.Planned tree m document es entry ∧ e = r.edit m document es entry := by
  rw [plan_eq_planFrom] at h
  obtain ⟨m, document, es, entry, hload, hchanges, rfl⟩ := planFrom_eq_edit h
  exact ⟨m, document, es, entry, ⟨hchanges.check, hload, hchanges.entries, hchanges.find⟩, rfl⟩

/-- Nothing is to be done when the document that was loaded has no matching entry. -/
theorem plan_eq_nothing (h : r.plan tree = .ok .nothing) :
    ∃ document es, Artifact.load tree r.path = .ok document ∧ Abi.entries document = .ok es ∧
      es.find? (Abi.isFunction r.function) = none := by
  unfold plan at h
  split at h
  · cases h
  split at h
  · cases h
  rename_i document hload
  split at h
  · cases h
  rename_i es hes
  rw [Except.ok.injEq] at h
  unfold planFor at h
  simp only at h
  split at h
  · rename_i hnone
    exact ⟨document, es, hload, Artifact.entries_eq_ok hes, hnone⟩
  · cases h

namespace Planned

variable (h : r.Planned tree m document es entry)
include h

/-- The tree determines what a plan is made from. -/
theorem unique {m' : Text} {document' : Json} {es' : List Abi.Entry} {entry' : Abi.Entry}
    (h' : r.Planned tree m' document' es' entry') : m = m' ∧ document = document' ∧ es = es' ∧ entry = entry' := by
  have hm : m = m' := Except.ok.inj (h.check.symm.trans h'.check)
  have hdocument : document = document' := Except.ok.inj (h.load.symm.trans h'.load)
  subst hdocument
  have hes : es = es' := Except.ok.inj (h.entries.symm.trans h'.entries)
  subst hes
  exact ⟨hm, rfl, rfl, Option.some.inj (h.find.symm.trans h'.find)⟩

/-- The changed document has the changed entries. -/
theorem entries_changed :
    Abi.entries (r.changed m document es) =
      .ok (Abi.changeFirst (Abi.isFunction r.function) (Abi.declare m) es) :=
  Abi.entries_withEntries h.entries

/-- What is planned is a change of the document that was loaded. -/
theorem changes : r.Changes m document es entry := ⟨h.check, h.entries, h.find⟩

/-- The changed document can be read again when it is written. -/
theorem readable_changed : (r.changed m document es).Readable :=
  h.changes.readable_changed (Artifact.readable_of_load h.load)

/-- No infinite double comes in. -/
theorem finite_changed (hfinite : document.Finite) : (r.changed m document es).Finite :=
  all_changed Abi.kept_finite trivial h.entries hfinite

end Planned

end Request

/-! ## Doing -/

namespace Edit

/-- What follows a write: the selector is made, if so many calls may be nested for it, and the outcome from it. -/
def finish (e : Edit) (r : Request) (room : Nat) : Except Failure Outcome :=
  match e.selector room with
  | .error f => .error f
  | .ok selector => Outcome.make r.path r.function e.status e.previous (some selector)

/-- A change fails before anything is written, or it writes the document and then makes the outcome. -/
theorem commit_cases (e : Edit) (r : Request) (host : Host) (tree : FileTree) :
    (∃ f, e.commit r host tree = ⟨tree, e.warnings r, .error f⟩) ∨
    ∃ loc mode bytes, Utf8.encode e.document.render = .ok bytes ∧ Artifact.Overwrites tree r.path loc mode ∧
      (e.commit r host tree).tree = tree.set loc (.file mode bytes) ∧ (e.commit r host tree).wrote = true ∧
      (e.commit r host tree).result = e.finish r host.room := by
  rcases Artifact.store_cases host tree r.path e.document with
    ⟨f, hstore⟩ | ⟨loc, mode, bytes, written, hbytes, hstore, hover⟩
  · refine .inl ⟨f, ?_⟩
    simp only [commit, hstore]
  · refine .inr ⟨loc, mode, bytes, hbytes, hover, ?_⟩
    unfold commit finish
    simp only [hstore]
    cases e.selector host.room with
    | error f => exact ⟨rfl, by simp [Run.wrote], rfl⟩
    | ok selector => exact ⟨rfl, by simp [Run.wrote], rfl⟩

/-- The warnings tell of no write. -/
theorem wrote_warnings {α : Type} (e : Edit) (r : Request) (tree : FileTree) (result : Except Failure α) :
    (Run.mk tree (e.warnings r) result).wrote = false := by
  unfold Run.wrote warnings
  split <;> rfl

end Edit

namespace Request

variable {r : Request} {host : Host} {tree : FileTree}

/-- How a request goes: nothing is touched and no write is told of, or the changed document replaces a file, in a tree
of files the one that was read, and the result is made after the write. -/
inductive Went (r : Request) (room : Nat) (tree : FileTree) (run : Run Outcome) : Prop
  | untouched : run.tree = tree → run.wrote = false → Went r room tree run
  | replaced (m : Text) (document : Json) (es : List Abi.Entry) (entry : Abi.Entry) (loc : Location) (mode : Nat)
      (bytes : Utf8.Bytes) : r.Planned tree m document es entry →
      Utf8.encode (r.changed m document es).render = .ok bytes → Artifact.Overwrites tree r.path loc mode →
      run.tree = tree.set loc (.file mode bytes) → run.wrote = true →
      run.result = (r.edit m document es entry).finish r room → Went r room tree run

/-- Every request goes in one of the two ways, whatever call of the write is made to fail. -/
theorem went_run (r : Request) (host : Host) (tree : FileTree) : r.Went host.room tree (r.run host tree) := by
  unfold run
  split
  · exact .untouched rfl rfl
  · exact .untouched rfl rfl
  · rename_i e hplan
    obtain ⟨m, document, es, entry, hplanned, rfl⟩ := plan_eq_edit hplan
    rcases (r.edit m document es entry).commit_cases r host tree with
      ⟨f, hcommit⟩ | ⟨loc, mode, bytes, hbytes, hover, htree, hwrote, hresult⟩
    · rw [hcommit]
      exact .untouched rfl (Edit.wrote_warnings _ _ _ _)
    · exact .replaced m document es entry loc mode bytes hplanned hbytes hover htree hwrote hresult

/-- A request that fails before it writes leaves the tree as it was. -/
theorem tree_of_not_wrote (h : (r.run host tree).wrote = false) : (r.run host tree).tree = tree := by
  cases r.went_run host tree with
  | untouched htree _ => exact htree
  | replaced _ _ _ _ _ _ _ _ _ _ _ hwrote =>
    rw [h] at hwrote
    cases hwrote

/-- In a tree of files, a request that wrote put the changed document into the file that it had read, with the mode of
that file. -/
theorem exists_of_wrote (hwell : tree.WellFormed) (h : (r.run host tree).wrote = true) :
    ∃ m document es entry loc mode content bytes, r.Planned tree m document es entry ∧ r.path.hasNul = false ∧
      tree.find r.path = .ok loc ∧ tree.entry? loc = some (.file mode content) ∧
      Artifact.decode content = .ok document ∧ Utf8.encode (r.changed m document es).render = .ok bytes ∧
      (r.run host tree).tree = tree.set loc (.file mode bytes) ∧
      (r.run host tree).result = (r.edit m document es entry).finish r host.room := by
  cases r.went_run host tree with
  | untouched _ hwrote =>
    rw [h] at hwrote
    cases hwrote
  | replaced m document es entry loc mode bytes hplanned hbytes hover htree _ hresult =>
    obtain ⟨hnul, found, old, content, hfind, hfile, hdecode⟩ := Artifact.load_eq_ok hplanned.load
    obtain ⟨rfl, rfl⟩ := hover hwell hnul found old content hfind hfile
    exact ⟨m, document, es, entry, loc, mode, content, bytes, hplanned, hnul, hfind, hfile, hdecode, hbytes, htree,
      hresult⟩

/-- An outcome that was made has the status that it was made with. -/
theorem status_of_make {path : Path} {function previous : Json} {status : Status} {selector : Option Text}
    {outcome : Outcome} (h : Outcome.make path function status previous selector = .ok outcome) :
    outcome.status = status := by
  unfold Outcome.make at h
  split at h
  · cases h
    rfl
  · cases h

/-- An outcome that was made is of the path and the function that it was made for. -/
theorem target_of_make {path : Path} {name : Text} {previous : Json} {status : Status} {selector : Option Text}
    {outcome : Outcome} (h : Outcome.make path (.str name) status previous selector = .ok outcome) :
    outcome.path = path ∧ outcome.function = name := by
  unfold Outcome.make at h
  cases hprevious : Checked.text? Outcome.previousName [(Outcome.previousName, previous)] with
  | error errors =>
    rw [hprevious] at h
    cases h
  | ok found =>
    rw [hprevious] at h
    cases h
    exact ⟨rfl, rfl⟩

/-- A request that comes to the outcome that its function was declared anew, or had been so before, wrote. -/
theorem wrote_of_result {outcome : Outcome} (h : (r.run host tree).result = .ok outcome)
    (hstatus : outcome.status = .patched ∨ outcome.status = .unchanged) : (r.run host tree).wrote = true := by
  unfold run at h ⊢
  split at h
  · cases h
  · rw [status_of_make h] at hstatus
    rcases hstatus with hstatus | hstatus <;> cases hstatus
  · rename_i e _
    rcases e.commit_cases r host tree with ⟨f, hcommit⟩ | ⟨loc, mode, bytes, -, -, -, hwrote, -⟩
    · rw [hcommit] at h
      cases h
    · exact hwrote

/-! ## Reading what was written -/

/-- A document of finite doubles is read back as it was changed. -/
theorem decode_changed {content bytes : Utf8.Bytes} {m : Text} {document : Json} {es : List Abi.Entry}
    (hdecode : Artifact.decode content = .ok document) (hes : Abi.entries document = .ok es)
    (hfinite : document.Finite) (hbytes : Utf8.encode (r.changed m document es).render = .ok bytes) :
    Artifact.decode bytes = .ok (r.changed m document es) := by
  have hreadable : (r.changed m document es).Readable :=
    all_changed Abi.kept_readable ⟨trivial, trivial⟩ hes (Artifact.readable_of_decode hdecode)
  rw [Artifact.decode_render hreadable hbytes]
  exact Artifact.readBack_of_finite (all_changed Abi.kept_finite trivial hes hfinite)

/-- What a path leads to is loaded from the file that was put there. -/
theorem load_set {path : Path} {loc : Location} {mode : Nat} {content bytes : Utf8.Bytes} (hnul : path.hasNul = false)
    (hfind : tree.find path = .ok loc) (hfile : tree.entry? loc = some (.file mode content)) :
    Artifact.load (tree.set loc (.file mode bytes)) path = Artifact.decode bytes := by
  have hshape := FileTree.sameShape_set hfile mode bytes
  exact Artifact.load_of_find hnul (hshape.find path ▸ hfind)
    (FileTree.entry?_set_self (FileTree.ne_nil_of_file hfile))

/-- In a tree of files, what a request wrote is read back as the changed document, or refused for the first name in it
that JSON does not have. -/
theorem load_of_wrote (hwell : tree.WellFormed) (h : (r.run host tree).wrote = true) :
    ∃ m document es entry, r.Planned tree m document es entry ∧
      Artifact.load (r.run host tree).tree r.path = Artifact.readBack (r.changed m document es) := by
  obtain ⟨m, document, es, entry, loc, mode, content, bytes, hplanned, hnul, hfind, hfile, -, hbytes, htree, -⟩ :=
    exists_of_wrote hwell h
  refine ⟨m, document, es, entry, hplanned, ?_⟩
  rw [htree, load_set hnul hfind hfile, Artifact.decode_render hplanned.readable_changed hbytes]

/-- In a tree of files, what a request wrote can be read exactly when every double of the changed document is finite. It
is then the changed document, and is refused by the name of an infinity or of no number otherwise. -/
theorem exists_load_iff_of_wrote (hwell : tree.WellFormed) (h : (r.run host tree).wrote = true) :
    ∃ m document es entry, r.Planned tree m document es entry ∧
      ((∃ d, Artifact.load (r.run host tree).tree r.path = .ok d) ↔ (r.changed m document es).Finite) ∧
      ((r.changed m document es).Finite →
        Artifact.load (r.run host tree).tree r.path = .ok (r.changed m document es)) ∧
      (¬(r.changed m document es).Finite → ∃ name ∈ Json.constants,
        Artifact.load (r.run host tree).tree r.path = .error (.noDocument (.constant name))) := by
  obtain ⟨m, document, es, entry, hplanned, hload⟩ := load_of_wrote hwell h
  refine ⟨m, document, es, entry, hplanned, ?_, ?_, ?_⟩
  · rw [hload]
    exact Artifact.exists_readBack_iff
  · intro hfinite
    rw [hload, Artifact.readBack_of_finite hfinite]
  · intro hinfinite
    rw [hload]
    exact Artifact.readBack_of_not_finite hinfinite

/-- A tree with an artifact that holds a number too large for a double. -/
def overflowing : FileTree :=
  .oneFile "A.json" "\x7b\"abi\": [\x7b\"type\": \"function\", \"name\": \"f\"\x7d], \"x\": 1e400\x7d"

/-- The function `f` of the artifact `A.json` is to be a view. -/
def viewOfF : Request :=
  ⟨⟨.relative, [Text.ofString "A.json"]⟩, .str (Text.ofString "f"), .str (Text.ofString "view")⟩

/-- A number that is too large for a double is read as infinity, and what was written is refused. -/
theorem load_of_wrote_overflowing :
    ¬∀ (r : Request) (host : Host) (tree : FileTree), tree.WellFormed →
      (r.run host tree).wrote = true → ∃ d, Artifact.load (r.run host tree).tree r.path = .ok d := by
  intro h
  obtain ⟨d, hd⟩ := h viewOfF .plain overflowing (by decide +kernel) (by decide +kernel)
  have hload : (Artifact.load (viewOfF.run .plain overflowing).tree viewOfF.path).isOk = false := by decide +kernel
  rw [hd] at hload
  cases hload

theorem exists_load_iff_of_wrote_overflowing :
    ∃ m document es entry, viewOfF.Planned overflowing m document es entry ∧
      ¬(viewOfF.changed m document es).Finite ∧ ∃ name ∈ Json.constants,
        Artifact.load (viewOfF.run .plain overflowing).tree viewOfF.path = .error (.noDocument (.constant name)) := by
  obtain ⟨m, document, es, entry, hplanned, hload, -, herror⟩ :=
    exists_load_iff_of_wrote (show overflowing.WellFormed by decide +kernel)
      (show (viewOfF.run .plain overflowing).wrote = true by decide +kernel)
  have hinfinite : ¬(viewOfF.changed m document es).Finite := by
    rw [← hload]
    rintro ⟨d, hd⟩
    have hno : (Artifact.load (viewOfF.run .plain overflowing).tree viewOfF.path).isOk = false := by decide +kernel
    rw [hd] at hno
    cases hno
  exact ⟨m, document, es, entry, hplanned, hinfinite, herror hinfinite⟩

end Request

end Redeclare

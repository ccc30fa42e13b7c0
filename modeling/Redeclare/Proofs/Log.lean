import Redeclare.Proofs.Repetition
import Redeclare.Proofs.Reports

/-!
# What is told of a batch

What a batch tells of falls into one piece for each target, in order. A piece tells that the function is not there; or
of the overloads, of the write and of the declaration; or of as much of this as was done before something failed, and
then of the failure. It tells of a write exactly when the artifact was replaced, and of as many characters as the
artifact then has. So as many failures and missing functions are told of as are reported.
-/

namespace Redeclare

/-! ## One request -/

/-- After a document was stored, a change tells of the write alone when there is no selector, and of the declaration too
otherwise. -/
theorem Edit.events_commit {host : Host} {tree after : FileTree} {e : Edit} {r : Request}
    {wrote : Event} (h : Artifact.store host tree r.path e.document = (after, .ok wrote)) :
    (∃ f, (e.commit r host tree).events = e.warnings r ++ [wrote] ∧ (e.commit r host tree).result = .error f) ∨
      ∃ selector, (e.commit r host tree).events =
        e.warnings r ++ [wrote, .declared r.path r.function selector e.previous e.mutability] ∧
        (e.commit r host tree).result = Outcome.make r.path r.function e.status e.previous (some selector) := by
  unfold commit
  simp only [h]
  cases e.selector host.room with
  | error f => exact .inl ⟨f, rfl, rfl⟩
  | ok selector => exact .inr ⟨selector, rfl, rfl⟩

namespace Request

variable {r : Request} {host : Host} {tree : FileTree}

/-- The file at a location is replaced for a request: the location is that of its artifact, a change is planned, and no
step of the replacement by the text of the changed document fails. -/
structure Replaces (r : Request) (host : Host) (tree : FileTree) (loc : Location) (text : Text) :
    Prop where
  planned : ∃ m document es entry, r.Planned tree m document es entry ∧ text = (r.changed m document es).render
  destination : tree.destination r.path = .ok loc
  failure : (FileTree.replaceAt host.fault (host.seeds 0) tree loc text).failure = none

/-- The document at the path of a request has `n` entries that match. -/
def Matches (r : Request) (tree : FileTree) (n : Nat) : Prop :=
  ∃ document es, Artifact.load tree r.path = .ok document ∧ Abi.entries document = .ok es ∧
    es.countP (Abi.isFunction r.function) = n

/-- The warning that others of `n` matching entries stay as they are, if there are others. -/
def overloads (r : Request) (n : Nat) : List Event := if 1 < n then [.overloads r.path r.function n] else []

/-- What a request tells and what it comes to: it stops before a write, without or with a matching entry, or it writes
and then fails to make the selector, or it tells of the declaration too. -/
inductive Told (r : Request) (host : Host) (tree : FileTree) :
    List Event → Except Failure Outcome → Prop
  | refused (f : Failure) : (¬∃ loc text, r.Replaces host tree loc text) → Told r host tree [] (.error f)
  | missing : r.Matches tree 0 → (¬∃ loc text, r.Replaces host tree loc text) →
    Told r host tree [.functionMissing r.path r.function] (Outcome.make r.path r.function .notFound .null none)
  | stopped (n : Nat) (f : Failure) : r.Matches tree n → (¬∃ loc text, r.Replaces host tree loc text) →
    Told r host tree (r.overloads n) (.error f)
  | unnamed (n : Nat) (loc : Location) (text : Text) (f : Failure) : r.Matches tree n → r.Replaces host tree loc text →
    Told r host tree (r.overloads n ++ [.wrote ⟨.root, loc⟩ text.length]) (.error f)
  | declared (n : Nat) (loc : Location) (text : Text) (selector : Text) (previous : Json) (m : Text)
      (status : Status) : r.Matches tree n → 0 < n → r.Replaces host tree loc text → r.mutability = .str m →
    status = .patched ∨ status = .unchanged →
    Told r host tree
      (r.overloads n ++ [.wrote ⟨.root, loc⟩ text.length, .declared r.path r.function selector previous m])
      (Outcome.make r.path r.function status previous (some selector))

variable {m : Text} {document : Json} {es : List Abi.Entry} {entry : Abi.Entry}

theorem Planned.matches (h : r.Planned tree m document es entry) :
    r.Matches tree (es.countP (Abi.isFunction r.function)) :=
  ⟨document, es, h.load, h.entries, rfl⟩

/-- A planned change is stored exactly when it replaces its file. -/
theorem Planned.replaces_iff (h : r.Planned tree m document es entry) {loc : Location} {text : Text} :
    r.Replaces host tree loc text ↔
      Artifact.store host tree r.path (r.changed m document es) =
        ((FileTree.replaceAt host.fault (host.seeds 0) tree loc text).tree, .ok (.wrote ⟨.root, loc⟩ text.length)) ∧
      text = (r.changed m document es).render := by
  rw [Artifact.store_eq_ok_iff]
  constructor
  · rintro ⟨⟨m', document', es', entry', hplanned, rfl⟩, hdestination, hfailure⟩
    obtain ⟨rfl, rfl, rfl, rfl⟩ := h.unique hplanned
    exact ⟨⟨h.readable_changed.hasLongWhole_eq_false, loc, hdestination, hfailure, rfl, rfl⟩, rfl⟩
  · rintro ⟨⟨-, loc', hdestination, hfailure, -, hwrote⟩, rfl⟩
    cases hwrote
    exact ⟨⟨m, document, es, entry, h, rfl⟩, hdestination, hfailure⟩

/-- Without a plan to change something, nothing is replaced. -/
theorem not_replaces_of_plan (h : ∀ e, r.plan tree ≠ .ok (.edit e)) : ¬∃ loc text, r.Replaces host tree loc text := by
  rintro ⟨loc, text, ⟨m, document, es, entry, hplanned, -⟩, -, -⟩
  exact h _ hplanned.plan

/-- Every request tells what it does. -/
theorem told_run (r : Request) (host : Host) (tree : FileTree) :
    r.Told host tree (r.run host tree).events (r.run host tree).result := by
  unfold run
  split
  · rename_i f hplan
    exact .refused f (not_replaces_of_plan fun e => by simp [hplan])
  · rename_i hplan
    obtain ⟨document, es, hload, hes, hnone⟩ := plan_eq_nothing hplan
    refine .missing ⟨document, es, hload, hes, ?_⟩ (not_replaces_of_plan fun e => by simp [hplan])
    rw [List.countP_eq_zero]
    exact List.find?_eq_none.mp hnone
  · rename_i e hplan
    obtain ⟨m, document, es, entry, hplanned, rfl⟩ := plan_eq_edit hplan
    have hpositive : 0 < es.countP (Abi.isFunction r.function) :=
      List.countP_pos_iff.mpr ⟨entry, List.mem_of_find?_eq_some hplanned.find, List.find?_some hplanned.find⟩
    rcases hstore : Artifact.store host tree r.path (r.changed m document es) with ⟨after, f | wrote⟩
    · have hnot : ¬∃ loc text, r.Replaces host tree loc text := by
        rintro ⟨loc, text, hreplaces⟩
        rw [hplanned.replaces_iff, hstore] at hreplaces
        cases hreplaces.1
      have hcommit : (r.edit m document es entry).commit r host tree =
          ⟨after, r.overloads (es.countP (Abi.isFunction r.function)), .error f⟩ := by
        simp only [Edit.commit, edit, hstore]
        rfl
      rw [hcommit]
      exact .stopped _ f hplanned.matches hnot
    · obtain ⟨-, loc, hdestination, hfailure, -, rfl⟩ := Artifact.store_eq_ok_iff.mp hstore
      have hreplaces : r.Replaces host tree loc (r.changed m document es).render :=
        ⟨⟨m, document, es, entry, hplanned, rfl⟩, hdestination, hfailure⟩
      rcases Edit.events_commit (e := r.edit m document es entry) hstore with
        ⟨f, hevents, hresult⟩ | ⟨selector, hevents, hresult⟩
      · rw [hevents, hresult]
        exact .unnamed _ loc _ f hplanned.matches hreplaces
      · rw [hevents, hresult]
        refine .declared _ loc _ selector _ m _ hplanned.matches hpositive hreplaces (check_eq_ok hplanned.check).2.1 ?_
        unfold Edit.status
        split
        · exact .inr rfl
        · exact .inl rfl

theorem wrote_not_mem_overloads {n : Nat} {path : Path} {length : Nat} : .wrote path length ∉ r.overloads n := by
  unfold overloads
  split <;> simp

/-- Only one location is replaced, by one text. -/
theorem Replaces.unique {loc loc' : Location} {text text' : Text} (h : r.Replaces host tree loc text)
    (h' : r.Replaces host tree loc' text') : loc = loc' ∧ text = text' := by
  obtain ⟨⟨m, document, es, entry, hplanned, rfl⟩, hdestination, -⟩ := h
  obtain ⟨⟨m', document', es', entry', hplanned', rfl⟩, hdestination', -⟩ := h'
  obtain ⟨rfl, rfl, rfl, rfl⟩ := hplanned.unique hplanned'
  exact ⟨Except.ok.inj (hdestination.symm.trans hdestination'), rfl⟩

/-- A write is told of exactly when the file at its location is replaced, with the length of the new text. -/
theorem Told.wrote_mem_iff {events : List Event} {result : Except Failure Outcome} (h : r.Told host tree events result)
    {path : Path} {length : Nat} :
    .wrote path length ∈ events ↔
      ∃ loc text, r.Replaces host tree loc text ∧ path = ⟨.root, loc⟩ ∧ length = text.length := by
  have hwrote : ∀ {n loc text}, r.Replaces host tree loc text →
      ((.wrote path length ∈ r.overloads n ∨ Event.wrote path length = .wrote ⟨.root, loc⟩ text.length) ↔
        ∃ loc text, r.Replaces host tree loc text ∧ path = ⟨.root, loc⟩ ∧ length = text.length) := by
    intro n loc text hreplaces
    rw [or_iff_right wrote_not_mem_overloads, Event.wrote.injEq]
    constructor
    · rintro ⟨hpath, hlength⟩
      exact ⟨loc, text, hreplaces, hpath, hlength⟩
    · rintro ⟨loc', text', hreplaces', hpath, hlength⟩
      obtain ⟨rfl, rfl⟩ := hreplaces.unique hreplaces'
      exact ⟨hpath, hlength⟩
  have hnone : (¬∃ loc text, r.Replaces host tree loc text) →
      ¬∃ loc text, r.Replaces host tree loc text ∧ path = ⟨.root, loc⟩ ∧ length = text.length := by
    rintro hnot ⟨loc, text, hreplaces, -⟩
    exact hnot ⟨loc, text, hreplaces⟩
  cases h with
  | refused f hnot => exact iff_of_false List.not_mem_nil (hnone hnot)
  | missing hmatches hnot => exact iff_of_false (by simp) (hnone hnot)
  | stopped n f hmatches hnot => exact iff_of_false wrote_not_mem_overloads (hnone hnot)
  | unnamed n loc text f hmatches hreplaces =>
    rw [List.mem_append, List.mem_singleton]
    exact hwrote hreplaces
  | declared n loc text selector previous m status hmatches hpositive hreplaces hm hstatus =>
    rw [List.mem_append, List.mem_pair, or_iff_left (a := Event.wrote path length = _) (by simp)]
    exact hwrote hreplaces

end Request

/-! ## Wordings -/

/-- What is heard of an event: how much it matters, who tells of it, and in which words. -/
structure Notice where
  level : Level
  source : Source
  message : Text

/-- What is heard of an event. -/
def Event.notice (e : Event) : Notice := ⟨e.level, e.source, e.message⟩

/-- What is heard of a file that was written, with its number of characters. -/
def Notice.wrote (path : Path) (length : Nat) : Notice :=
  ⟨.debug, .artifact,
    Text.ofString "Wrote " ++ path.toText ++ Text.ofString " (" ++ Text.ofNat length ++ Text.ofString " chars)"⟩

namespace Target

variable (t : Target)

/-- The warning that the function of a target is not there. -/
def missingNotice : Notice :=
  ⟨.warning, .patch, Text.ofString "Function " ++ t.function ++ Text.ofString " not found in " ++ t.path.toText⟩

/-- The warning that there are `n` functions of the name, of which only one is declared anew. -/
def overloadsNotice (n : Nat) : Notice :=
  ⟨.warning, .patch,
    t.path.toText ++ Text.ofString ": " ++ Text.ofNat n ++ Text.ofString " functions named " ++ t.function ++
      Text.ofString ", leaving " ++ Text.ofNat (n - 1) ++ Text.ofString " overload(s) as declared"⟩

/-- What is heard of a declaration, with the selector of the function and what it was declared as before. -/
def declaredNotice (selector previous : Text) : Notice :=
  ⟨.info, .patch,
    t.path.toText ++ Text.ofString ": " ++ t.function ++ Text.ofString " [" ++ selector ++ Text.ofString "] " ++
      previous ++ Text.ofString " -> view"⟩

/-- What is heard of a target that failed. -/
def failedNotice : Notice :=
  ⟨.error, .batch, Text.ofString "Failed to patch " ++ t.function ++ Text.ofString " in " ++ t.path.toText⟩

/-- What is heard of a target with `n` matching entries when nothing fails: the other entries if there are any, the
write, and the declaration. -/
def whole (n : Nat) (path : Path) (length : Nat) (selector previous : Text) : List Notice :=
  (if 1 < n then [t.overloadsNotice n] else []) ++ [.wrote path length, t.declaredNotice selector previous]

theorem notice_overloads (n : Nat) :
    (t.request.overloads n).map Event.notice = if 1 < n then [t.overloadsNotice n] else [] := by
  unfold Request.overloads
  split <;> rfl

/-- What is told of a target when nothing fails is heard as such. -/
theorem notice_whole (n : Nat) (path : Path) (length : Nat) (selector : Text) (previous : Json) :
    (t.request.overloads n ++ [Event.wrote path length,
      Event.declared t.request.path t.request.function selector previous mutability]).map Event.notice =
      t.whole n path length selector previous.display := by
  have hdeclared : (Event.declared t.path (.str t.function) selector previous mutability).notice =
      t.declaredNotice selector previous.display := by
    show Notice.mk _ _ (_ ++ _ ++ mutability) = Notice.mk _ _ _
    rw [List.append_assoc]
    rfl
  rw [List.map_append, notice_overloads, whole, ← hdeclared]
  rfl

end Target

/-- A previous value that can be recorded is told of in the words of its record. -/
theorem Checked.display_of_text? {name : Text} {value : Json} {found : Option Text}
    (h : Checked.text? name [(name, value)] = .ok found) : value.display = found.getD (Text.ofString "None") := by
  have hget : Members.get? name [(name, value)] = some value := by simp [Members.get?]
  rw [Checked.text?, hget] at h
  cases value with
  | null => cases h; rfl
  | str t => cases h; rfl
  | _ => cases h

/-- An outcome that was made has the selector that it was made with, and the previous value that is told of. -/
theorem Outcome.fields_of_make {path : Path} {name : Text} {previous : Json} {status : Status}
    {selector : Option Text} {outcome : Outcome} (h : make path (.str name) status previous selector = .ok outcome) :
    outcome.selector = selector ∧ previous.display = outcome.previous.getD (Text.ofString "None") := by
  unfold make at h
  cases hprevious : Checked.text? previousName [(previousName, previous)] with
  | error errors =>
    rw [hprevious] at h
    cases h
  | ok found =>
    rw [hprevious] at h
    cases h
    exact ⟨rfl, Checked.display_of_text? hprevious⟩

/-! ## One target -/

namespace Batch

variable {host : Host} {tree after : FileTree} {t : Target} {outcome : Outcome} {events : List Event}
  {result : Except Failure Outcome}

/-- What is heard of a target, by its outcome: that its function is not there; all that there is to tell of a function
that is there, with the selector and the previous value of the outcome; or the beginning of such, and the failure. -/
inductive Piece (t : Target) (tree : FileTree) (outcome : Outcome) : List Notice → Prop
  | missing : t.request.Matches tree 0 → outcome.status = .notFound → Piece t tree outcome [t.missingNotice]
  | found {n : Nat} {path : Path} {length : Nat} {selector : Text} : t.request.Matches tree n → 0 < n →
    outcome.status = .patched ∨ outcome.status = .unchanged → outcome.selector = some selector →
    Piece t tree outcome (t.whole n path length selector (outcome.previous.getD (Text.ofString "None")))
  | failed {n : Nat} {path : Path} {length : Nat} {selector previous : Text} {told : List Notice} :
    (told ≠ [] → t.request.Matches tree n) → told <+: t.whole n path length selector previous →
    outcome.status = .failed → Piece t tree outcome (told ++ [t.failedNotice])

/-- What is told of a target whose request told of events and has a result: a failure is told at the end. -/
def told (t : Target) (events : List Event) : Except Failure Outcome → List Event
  | .ok _ => events
  | .error _ => events ++ [.targetFailed t.path t.function]

theorem events_tryTarget (host : Host) (tree : FileTree) (t : Target) :
    (tryTarget host tree t).2.1 = told t (t.request.run host tree).events (t.request.run host tree).result := by
  unfold tryTarget
  obtain ⟨after, events, result⟩ := t.request.run host tree
  cases result <;> rfl

/-- When a request fails, what is heard is what it told, and the failure. -/
theorem piece_of_prefix (n : Nat) (path : Path) (length : Nat) (selector previous : Text) (f : Failure)
    (hmatches : events ≠ [] → t.request.Matches tree n)
    (hfront : events.map Event.notice <+: t.whole n path length selector previous) :
    Piece t tree (t.record (.error f)) ((told t events (.error f)).map Event.notice) := by
  have hheard : (told t events (.error f)).map Event.notice = events.map Event.notice ++ [t.failedNotice] :=
    List.map_append
  rw [hheard]
  refine .failed ?_ hfront rfl
  intro hne
  exact hmatches fun hnil => hne (by rw [hnil]; rfl)

/-- Of every target a piece is heard by its outcome. -/
theorem piece_told (h : t.request.Told host tree events result) :
    Piece t tree (t.record result) ((told t events result).map Event.notice) := by
  cases h with
  | refused f hnot =>
    exact piece_of_prefix 0 ⟨.root, []⟩ 0 [] [] f (fun hne => absurd rfl hne) List.nil_prefix
  | missing hmatches hnot => exact .missing hmatches rfl
  | stopped n f hmatches hnot =>
    refine piece_of_prefix n ⟨.root, []⟩ 0 [] [] f (fun _ => hmatches) ?_
    rw [t.notice_overloads]
    exact List.prefix_append _ _
  | unnamed n loc text f hmatches hreplaces =>
    refine piece_of_prefix n ⟨.root, loc⟩ text.length [] [] f (fun _ => hmatches) ?_
    rw [List.map_append, t.notice_overloads, Target.whole, List.prefix_append_right_inj]
    exact List.prefix_append [_] [_]
  | declared n loc text selector previous m status hmatches hpositive hreplaces hm hstatus =>
    obtain rfl : Target.mutability = m := Json.str.inj hm
    have hheard := t.notice_whole n ⟨.root, loc⟩ text.length selector previous
    cases hresult : Outcome.make t.request.path t.request.function status previous (some selector) with
    | ok outcome =>
      obtain ⟨hselector, hprevious⟩ := Outcome.fields_of_make hresult
      rw [← Request.status_of_make hresult] at hstatus
      rw [told, hheard, hprevious]
      exact .found hmatches hpositive hstatus hselector
    | error f =>
      refine piece_of_prefix n ⟨.root, loc⟩ text.length selector previous.display f (fun _ => hmatches) ?_
      exact hheard ▸ List.prefix_refl _

theorem piece_tryTarget (host : Host) (tree : FileTree) (t : Target) :
    Piece t tree (tryTarget host tree t).2.2 ((tryTarget host tree t).2.1.map Event.notice) := by
  rw [outcome_tryTarget, events_tryTarget]
  exact piece_told (t.request.told_run host tree)

/-- A write is heard of exactly when the artifact is replaced: the file is that to which the path of the target leads,
and so many characters are read from it afterwards. If it is not replaced, the tree is as it was. -/
structure TellsWrites (host : Host) (t : Target) (tree after : FileTree) (heard : List Notice) :
    Prop where
  iff_replaces : (∃ notice ∈ heard, notice.level = .debug) ↔ ∃ loc text, t.request.Replaces host tree loc text
  content : ∀ notice ∈ heard, notice.level = .debug → ∃ loc bytes cs, tree.find t.path = .ok loc ∧
    after.read t.path = .ok bytes ∧ Utf8.decode bytes = .ok cs ∧ notice = .wrote ⟨.root, loc⟩ cs.length
  untouched : (¬∃ loc text, t.request.Replaces host tree loc text) → after = tree

/-- Nothing but a write is heard of for debugging. -/
theorem debug_mem_iff {notice : Notice} :
    (notice ∈ (told t events result).map Event.notice ∧ notice.level = .debug) ↔
      ∃ path length, .wrote path length ∈ events ∧ notice = .wrote path length := by
  have hmem : ∀ path length, .wrote path length ∈ told t events result ↔ Event.wrote path length ∈ events := by
    intro path length
    cases result <;> simp [told]
  simp only [List.mem_map, ← hmem]
  constructor
  · rintro ⟨⟨event, hevent, rfl⟩, hlevel⟩
    cases event with
    | wrote path length => exact ⟨path, length, hevent, rfl⟩
    | _ => cases hlevel
  · rintro ⟨path, length, hevent, rfl⟩
    exact ⟨⟨_, hevent, rfl⟩, rfl⟩

/-- In a tree of files, of every target the writes are told. -/
theorem tellsWrites_tryTarget (hwell : tree.WellFormed) (host : Host) (t : Target) :
    TellsWrites host t tree (tryTarget host tree t).1 ((tryTarget host tree t).2.1.map Event.notice) := by
  have htold := t.request.told_run host tree
  have hiff : (∃ path length, .wrote path length ∈ (t.request.run host tree).events) ↔
      ∃ loc text, t.request.Replaces host tree loc text := by
    simp only [htold.wrote_mem_iff]
    constructor
    · rintro ⟨-, -, loc, text, hreplaces, -⟩
      exact ⟨loc, text, hreplaces⟩
    · rintro ⟨loc, text, hreplaces⟩
      exact ⟨_, _, loc, text, hreplaces, rfl, rfl⟩
  rw [events_tryTarget]
  refine ⟨?_, ?_, ?_⟩
  · rw [← hiff]
    simp only [debug_mem_iff]
    constructor
    · rintro ⟨-, path, length, hwrote, -⟩
      exact ⟨path, length, hwrote⟩
    · rintro ⟨path, length, hwrote⟩
      exact ⟨_, path, length, hwrote, rfl⟩
  · intro notice hnotice hlevel
    obtain ⟨path, length, hwrote, rfl⟩ := debug_mem_iff.mp ⟨hnotice, hlevel⟩
    obtain ⟨loc, text, ⟨⟨m, document, es, entry, hplanned, rfl⟩, hdestination, -⟩, rfl, rfl⟩ :=
      htold.wrote_mem_iff.mp hwrote
    obtain ⟨hnul, found, mode, content, hfind, hfile, -⟩ := Artifact.load_eq_ok hplanned.load
    obtain rfl : loc = found :=
      Except.ok.inj (hdestination.symm.trans (FileTree.destination_of_find hwell hnul hfind))
    obtain ⟨bytes, hbytes, htree, -⟩ :=
      hplanned.exists_of_wrote hwell hfind hfile (Run.wrote_iff.mpr ⟨_, _, hwrote⟩)
    obtain ⟨cs, hcs, rfl⟩ := Utf8.eq_ofChars_of_encode hbytes
    refine ⟨loc, _, cs, hfind, ?_, Utf8.decode_encodeChars cs, by rw [hcs, Text.ofChars, List.length_map]⟩
    have hsame : FileTree.find (tree.set loc (.file mode (Utf8.encodeChars cs))) t.path = .ok loc :=
      ((FileTree.rewritten_set hfile _).finds t.path).trans hfind
    simp only [tree_tryTarget, htree, FileTree.read, hsame, FileTree.entry?_set_self (FileTree.ne_nil_of_file hfile)]
  · intro hnot
    rw [tree_tryTarget]
    refine Request.tree_of_not_wrote (Bool.eq_false_iff.mpr fun hwrote => ?_)
    exact hnot (hiff.mp (Run.wrote_iff.mp hwrote))

/-! ## Counting -/

/-- An event that tells of a function that is not there. -/
def tellsMissing : Event → Bool
  | .functionMissing _ _ => true
  | _ => false

/-- Of a target, one failure is told or none, and one missing function or none, as its outcome is. -/
theorem countP_told (h : t.request.Told host tree events result) :
    (told t events result).countP (·.notice.level = .error) = (if (t.record result).status = .failed then 1 else 0) ∧
      (told t events result).countP tellsMissing = if (t.record result).status = .notFound then 1 else 0 := by
  have hquiet : ∀ n, (t.request.overloads n).countP (·.notice.level = .error) = 0 ∧
      (t.request.overloads n).countP tellsMissing = 0 := by
    intro n
    unfold Request.overloads
    split <;> exact ⟨rfl, rfl⟩
  cases h with
  | refused f hnot => exact ⟨rfl, rfl⟩
  | missing hmatches hnot => exact ⟨rfl, rfl⟩
  | stopped n f hmatches hnot =>
    simp only [told, List.countP_append, hquiet]
    exact ⟨rfl, rfl⟩
  | unnamed n loc text f hmatches hreplaces =>
    simp only [told, List.countP_append, hquiet]
    exact ⟨rfl, rfl⟩
  | declared n loc text selector previous m status hmatches hpositive hreplaces hm hstatus =>
    cases hresult : Outcome.make t.request.path t.request.function status previous (some selector) with
    | ok outcome =>
      simp only [told, Target.record, List.countP_append, hquiet, Request.status_of_make hresult]
      rcases hstatus with rfl | rfl <;> exact ⟨rfl, rfl⟩
    | error f =>
      simp only [told, List.countP_append, hquiet]
      exact ⟨rfl, rfl⟩

theorem countP_tryTarget (host : Host) (tree : FileTree) (t : Target) :
    (tryTarget host tree t).2.1.countP (·.notice.level = .error) =
        (if (tryTarget host tree t).2.2.status = .failed then 1 else 0) ∧
      (tryTarget host tree t).2.1.countP tellsMissing =
        if (tryTarget host tree t).2.2.status = .notFound then 1 else 0 := by
  rw [outcome_tryTarget, events_tryTarget]
  exact countP_told (t.request.told_run host tree)

/-! ## The whole batch -/

/-- A batch tells of as many failures as its report has, and of as many missing functions. -/
theorem countP_events (host : Host) (tree : FileTree) (targets : List Target) :
    (run host tree targets).events.countP (·.notice.level = .error) = (run host tree targets).report.failed.length ∧
      (run host tree targets).events.countP tellsMissing = (run host tree targets).report.missing.length := by
  induction targets generalizing host tree with
  | nil => exact ⟨rfl, rfl⟩
  | cons t rest ih =>
    obtain ⟨herrors, hmissing⟩ := ih (host.after 1) (tryTarget host tree t).1
    obtain ⟨herror, hmiss⟩ := countP_tryTarget host tree t
    have hevents : (run host tree (t :: rest)).events =
        (tryTarget host tree t).2.1 ++ (run (host.after 1) (tryTarget host tree t).1 rest).events := rfl
    have hresults : (run host tree (t :: rest)).report.results =
        (tryTarget host tree t).2.2 :: (run (host.after 1) (tryTarget host tree t).1 rest).report.results := rfl
    rw [Report.failed, Report.missing, hevents, hresults, List.countP_append, List.countP_append, herror, hmiss,
      herrors, hmissing, List.filter_cons, List.filter_cons, Report.failed, Report.missing]
    cases (tryTarget host tree t).2.2.status <;> simp [Nat.add_comm]

/-- In a tree of files, what every batch tells of falls into one piece for each target, in order: what is heard of the
target, by the outcome that is reported of it, in which levels and words, and of its writes, by what they do to the
tree. The warning that a function is not there is told just of the targets that are reported so. So as many failures and
missing functions are told of as are reported. -/
theorem exists_pieces (hwell : tree.WellFormed) (host : Host) (targets : List Target) :
    (∃ pieces : List (List Event), pieces.flatten = (run host tree targets).events ∧
      pieces.length = targets.length ∧
      ∀ i t, targets[i]? = some t → ∃ piece outcome, pieces[i]? = some piece ∧
        (run host tree targets).report.results[i]? = some outcome ∧
        Piece t (run host tree (targets.take i)).tree outcome (piece.map Event.notice) ∧
        TellsWrites (host.after i) t (run host tree (targets.take i)).tree
          (run host tree (targets.take (i + 1))).tree (piece.map Event.notice) ∧
        piece.countP tellsMissing = if outcome.status = .notFound then 1 else 0) ∧
    (run host tree targets).events.countP (·.notice.level = .error) = (run host tree targets).report.failed.length ∧
    (run host tree targets).events.countP tellsMissing = (run host tree targets).report.missing.length := by
  refine ⟨?_, countP_events host tree targets⟩
  induction targets generalizing host tree with
  | nil => exact ⟨[], rfl, rfl, fun i t h => nomatch h⟩
  | cons first rest ih =>
    have hwell' : (tryTarget host tree first).1.WellFormed := by
      rw [tree_tryTarget]
      exact (first.request.alike_run hwell host).shape.wellFormed hwell
    obtain ⟨pieces, hflatten, hlength, hpieces⟩ := ih hwell' (host.after 1)
    refine ⟨(tryTarget host tree first).2.1 :: pieces, ?_, by rw [List.length_cons, hlength, List.length_cons], ?_⟩
    · rw [List.flatten_cons, hflatten]
      rfl
    · intro i t h
      cases i with
      | zero =>
        cases h
        exact ⟨_, _, rfl, rfl, piece_tryTarget host tree first, tellsWrites_tryTarget hwell host first,
          (countP_tryTarget host tree first).2⟩
      | succ i => exact hpieces i t h

theorem exists_pieces_artifactAndLink :
    (run .plain artifactAndLink targetsThroughLink).report.results.map (·.status) =
        [.patched, .failed, .notFound, .unchanged] ∧
      (∃ pieces : List (List Event), pieces.flatten = (run .plain artifactAndLink targetsThroughLink).events ∧
        pieces.length = 4 ∧
        pieces[2]?.map (List.map Event.notice) = some [(targetIn "link" "h").missingNotice]) ∧
      (run .plain artifactAndLink targetsThroughLink).events.countP (·.notice.level = .error) = 1 ∧
      (run .plain artifactAndLink targetsThroughLink).events.countP tellsMissing = 1 := by
  obtain ⟨⟨pieces, hflatten, hlength, hpieces⟩, herrors, hmissing⟩ :=
    exists_pieces (show artifactAndLink.WellFormed by decide +kernel) .plain targetsThroughLink
  obtain ⟨hstatuses, hfailed, hlacking⟩ :
      (run .plain artifactAndLink targetsThroughLink).report.results.map (·.status) =
          [.patched, .failed, .notFound, .unchanged] ∧
        (run .plain artifactAndLink targetsThroughLink).report.failed.length = 1 ∧
        (run .plain artifactAndLink targetsThroughLink).report.missing.length = 1 := by decide +kernel
  obtain ⟨piece, outcome, hpiece, houtcome, hform, -⟩ := hpieces 2 (targetIn "link" "h") rfl
  have hstatus : outcome.status = .notFound := by
    have hthird := congrArg (·[2]?) hstatuses
    simpa [houtcome] using hthird
  refine ⟨hstatuses, ⟨pieces, hflatten, hlength, ?_⟩, herrors.trans hfailed, hmissing.trans hlacking⟩
  rw [hpiece, Option.map_some]
  generalize piece.map Event.notice = heard at hform
  cases hform with
  | missing _ _ => rfl
  | found _ _ hother _ => rw [hstatus] at hother; simp at hother
  | failed _ _ hother => rw [hstatus] at hother; cases hother

end Batch

end Redeclare

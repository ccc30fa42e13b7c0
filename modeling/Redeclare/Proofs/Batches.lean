import Redeclare.Batch
import Redeclare.Proofs.Parameters
import Redeclare.Proofs.Requests

/-!
# Batches

A batch takes its targets one after another, so what is said of one target in one tree is said of every position of
every batch. A target that fails leaves the tree as it was, with one exception: the selector and the outcome are made
after the write, from an entry that may have no signature, or one that too many nested calls are needed for, or a
mutability before it that is neither a text nor null. Then the file has been replaced, and the target is recorded as
failed.
-/

namespace Redeclare

namespace Edit

/-- The mutability before a change can be recorded: it is null or a text. -/
def Recordable : Json → Prop
  | .null | .str _ => True
  | _ => False

/-- The outcome of a change of a named function can be made when the mutability before it can be recorded. -/
theorem make_error_iff {path : Path} {name : Text} {status : Status} {previous : Json} {selector : Option Text} :
    (∃ f, Outcome.make path (.str name) status previous selector = .error f) ↔ ¬Recordable previous := by
  cases previous <;>
    simp [Outcome.make, Checked.within, Checked.text, Checked.text?, Checked.and, Checked.refuse, Members.get?,
      Recordable]

/-- An entry without lone surrogates has a selector if it has a signature for which there is room. -/
theorem exists_selector {e : Edit} {room : Nat} {signature : Text} (hroom : ¬room < Abi.signatureDepth e.entry)
    (hsignature : Abi.signature e.entry = .ok signature)
    (hcharacters : (Json.obj e.entry).All Json.NoLoneSurrogate) : ∃ selector, e.selector room = .ok selector := by
  have hlone : ∀ u, .lone u ∉ signature := by
    intro u hu
    obtain ⟨w, hw, hmention⟩ := Abi.mentionedIn_of_signature hsignature hu
    have hclean := hcharacters w hw
    cases w with
    | str t => exact hclean u hmention
    | obj members =>
      obtain ⟨m, hm, hu⟩ := hmention
      exact hclean m hm u hu
    | _ => exact hmention
  obtain ⟨bytes, hbytes⟩ := Utf8.exists_encode_iff.mpr hlone
  simp [selector, hroom, hsignature, Abi.selector, hbytes]

/-- What follows a write fails when there is no room for the signature of the changed entry, when the entry has none, or
when the mutability before the change cannot be recorded. The selector of a signature is always there, since the
document could be encoded. -/
theorem finish_error_iff {e : Edit} {r : Request} {room : Nat} {name : Text} (hname : r.function = .str name)
    (hcharacters : (Json.obj e.entry).All Json.NoLoneSurrogate) :
    (∃ f, e.finish r room = .error f) ↔
      room < Abi.signatureDepth e.entry ∨ Abi.MalformedInputs e.entry ∨ ¬Recordable e.previous := by
  rw [← Abi.signature_error_iff, finish, hname]
  by_cases hroom : room < Abi.signatureDepth e.entry
  · simp [selector, hroom]
  cases hsignature : Abi.signature e.entry with
  | error f => simp [selector, hroom, hsignature]
  | ok signature =>
    obtain ⟨selector, hselector⟩ := exists_selector hroom hsignature hcharacters
    simp [hselector, hroom, make_error_iff]

end Edit

namespace Abi

/-- The change of an entry cannot be recorded: there is no room for the calls that make its signature, or the entry has
malformed inputs, or a mutability that is neither null nor a text. -/
def Defective (room : Nat) (entry : Entry) : Prop :=
  room < signatureDepth entry ∨ MalformedInputs entry ∨
    ∃ previous, Members.get? mutabilityName entry = some previous ∧ ¬Edit.Recordable previous

/-- Declaring another mutability leaves the inputs as they are. -/
theorem inputs_declare {m : Text} {entry : Entry} :
    Members.get? inputsName (declare m entry) = Members.get? inputsName entry := by
  have hne : inputsName ≠ mutabilityName := by decide
  exact Members.get?_put_of_ne hne _ _

theorem malformedInputs_declare {m : Text} {entry : Entry} :
    MalformedInputs (declare m entry) ↔ MalformedInputs entry := by
  simp only [MalformedInputs, inputs_declare]

theorem signatureDepth_declare {m : Text} {entry : Entry} :
    signatureDepth (declare m entry) = signatureDepth entry := by
  rw [signatureDepth, inputs_declare, signatureDepth]

theorem not_recordable_getD {entry : Entry} :
    ¬Edit.Recordable ((Members.get? mutabilityName entry).getD .null) ↔
      ∃ previous, Members.get? mutabilityName entry = some previous ∧ ¬Edit.Recordable previous := by
  cases Members.get? mutabilityName entry <;> simp [Edit.Recordable]

end Abi

namespace Request

variable {r : Request} {tree : FileTree} {m : Text} {document : Json} {es : List Abi.Entry} {entry : Abi.Entry}

/-- An entry that was written in a document has no lone surrogates. -/
theorem Planned.characters_entry {bytes : Utf8.Bytes} (h : r.Planned tree m document es entry)
    (hbytes : Utf8.encode (r.changed m document es).render = .ok bytes) :
    (Json.obj (Abi.declare m entry)).All Json.NoLoneSurrogate := by
  have hcharacters : (r.changed m document es).All Json.NoLoneSurrogate :=
    Json.lone_not_mem_render.mp (Utf8.exists_encode_iff.mp ⟨bytes, hbytes⟩)
  exact Abi.all_of_entries h.entries_changed hcharacters _ (Abi.mem_changeFirst_of_find? h.find)

/-- After the write, a request for a named function fails when the entry that it changed is defective. -/
theorem Planned.finish_error_iff {room : Nat} {name : Text} {bytes : Utf8.Bytes}
    (h : r.Planned tree m document es entry) (hname : r.function = .str name)
    (hbytes : Utf8.encode (r.changed m document es).render = .ok bytes) :
    (∃ f, (r.edit m document es entry).finish r room = .error f) ↔ Abi.Defective room entry := by
  rw [Edit.finish_error_iff hname (h.characters_entry hbytes)]
  show room < Abi.signatureDepth (Abi.declare m entry) ∨ Abi.MalformedInputs (Abi.declare m entry) ∨ _ ↔ _
  rw [Abi.signatureDepth_declare, Abi.malformedInputs_declare]
  exact or_congr_right (or_congr_right Abi.not_recordable_getD)

/-- A request that comes to an outcome does not come to a failed one. -/
theorem status_ne_failed {host : Host} {outcome : Outcome}
    (h : (r.run host tree).result = .ok outcome) :
    outcome.status ≠ .failed := by
  unfold run at h
  split at h
  · cases h
  · rw [status_of_make h]
    decide
  · unfold Edit.commit at h
    simp only at h
    split at h
    · cases h
    split at h
    · cases h
    · rw [status_of_make h, Edit.status]
      split <;> decide

end Request

/-- A target was left half done: the changed document has replaced a file, and the entry that was changed is
defective. -/
def Target.Torn (t : Target) (room : Nat) (before after : FileTree) : Prop :=
  ∃ document es entry loc mode bytes,
    t.request.Planned before Target.mutability document es entry ∧ Abi.Defective room entry ∧
    Utf8.encode (t.request.changed Target.mutability document es).render = .ok bytes ∧
    Artifact.Overwrites before t.path loc mode ∧ after = before.set loc (.file mode bytes)

/-- A request of a target that is planned asks for the mutability of batches. -/
theorem Target.eq_of_planned {t : Target} {tree : FileTree} {m : Text} {document : Json} {es : List Abi.Entry}
    {entry : Abi.Entry} (h : t.request.Planned tree m document es entry) : m = Target.mutability := by
  have hm := (Request.check_eq_ok h.check).2.1
  exact (Json.str.inj hm).symm

namespace Batch

variable {host : Host} {tree : FileTree} {t : Target} {targets : List Target} {i : Nat}

/-! ## One target -/

theorem tree_tryTarget (host : Host) (tree : FileTree) (t : Target) :
    (tryTarget host tree t).1 = (t.request.run host tree).tree := by
  unfold tryTarget
  obtain ⟨after, events, result⟩ := t.request.run host tree
  cases result <;> rfl

/-- A target is recorded as failed exactly when its request fails. -/
theorem status_tryTarget (host : Host) (tree : FileTree) (t : Target) :
    (tryTarget host tree t).2.2.status = .failed ↔ ∃ f, (t.request.run host tree).result = .error f := by
  cases hresult : (t.request.run host tree).result with
  | error f => simp [tryTarget, hresult, Outcome.ofFailure]
  | ok outcome => simp [tryTarget, hresult, Request.status_ne_failed hresult]

/-- A target is recorded as failed and the tree is not as it was exactly when the target was left half done. -/
theorem failed_and_touched_iff (host : Host) (tree : FileTree) (t : Target) :
    ((tryTarget host tree t).2.2.status = .failed ∧ (tryTarget host tree t).1 ≠ tree) ↔
      (t.Torn host.room tree (tryTarget host tree t).1 ∧ (tryTarget host tree t).1 ≠ tree) := by
  rw [status_tryTarget, tree_tryTarget]
  cases t.request.went_run host tree with
  | untouched htree _ => simp [htree]
  | replaced m document es entry loc mode bytes hplanned hbytes hover htree _ hresult =>
    obtain rfl := Target.eq_of_planned hplanned
    rw [hresult, hplanned.finish_error_iff rfl hbytes]
    refine and_congr_left fun _ => ⟨?_, ?_⟩
    · intro hdefective
      exact ⟨document, es, entry, loc, mode, bytes, hplanned, hdefective, hbytes, hover, htree⟩
    · rintro ⟨document', es', entry', -, -, -, hplanned', hdefective, -, -, -⟩
      obtain ⟨-, -, -, rfl⟩ := hplanned.unique hplanned'
      exact hdefective

/-! ## Positions -/

/-- The target at a position is tried in the tree that the targets before it leave. -/
theorem run_position (host : Host) (tree : FileTree) (h : targets[i]? = some t) :
    (run host tree targets).report.results[i]? =
      some (tryTarget (host.after i) (run host tree (targets.take i)).tree t).2.2 ∧
    (run host tree (targets.take (i + 1))).tree =
      (tryTarget (host.after i) (run host tree (targets.take i)).tree t).1 := by
  induction targets generalizing host tree i with
  | nil => cases h
  | cons first rest ih =>
    cases i with
    | zero =>
      cases h
      exact ⟨rfl, rfl⟩
    | succ i => exact ih (host.after 1) _ h

/-- At every position of every batch, the target is recorded as failed and the tree is not exactly as the targets before
it left it just when the target was left half done. -/
theorem failed_and_touched_at_iff (host : Host) (tree : FileTree) (targets : List Target) (i : Nat)
    (h : targets[i]? = some t) :
    ∃ outcome, (run host tree targets).report.results[i]? = some outcome ∧
      ((outcome.status = .failed ∧
          (run host tree (targets.take (i + 1))).tree ≠ (run host tree (targets.take i)).tree) ↔
        (t.Torn host.room (run host tree (targets.take i)).tree (run host tree (targets.take (i + 1))).tree ∧
          (run host tree (targets.take (i + 1))).tree ≠ (run host tree (targets.take i)).tree)) := by
  obtain ⟨hresult, htree⟩ := run_position host tree h
  refine ⟨_, hresult, ?_⟩
  rw [htree]
  exact failed_and_touched_iff (host.after i) _ t

/-- A tree with an artifact whose function `f` takes a tuple with no list of components. -/
def withoutComponents : FileTree :=
  .oneFile "A.json" <|
    "\x7b\"abi\":[\x7b\"type\":\"function\",\"name\":\"f\"," ++
      "\"inputs\":[\x7b\"type\":\"tuple\",\"components\":null\x7d]\x7d]\x7d"

/-- The function `f` of the artifact `A.json`. -/
def targetF : Target := ⟨⟨.relative, [Text.ofString "A.json"]⟩, Text.ofString "f"⟩

theorem failed_and_touched_withoutComponents :
    ¬∀ (host : Host) (tree : FileTree) (targets : List Target) (i : Nat) (outcome : Outcome),
      (run host tree targets).report.results[i]? = some outcome → outcome.status = .failed →
        (run host tree (targets.take (i + 1))).tree = (run host tree (targets.take i)).tree := by
  intro h
  have hstatus : ((run .plain withoutComponents [targetF]).report.results[0]?.map (·.status)) = some .failed := by
    decide +kernel
  obtain ⟨outcome, houtcome, hfailed⟩ := Option.map_eq_some_iff.mp hstatus
  have htouched : (run .plain withoutComponents [targetF]).tree ≠ withoutComponents := by decide +kernel
  exact htouched (h .plain withoutComponents [targetF] 0 outcome houtcome hfailed)

theorem failed_and_touched_at_iff_withoutComponents :
    [targetF][0]? = some targetF ∧
      targetF.Torn Host.plain.room withoutComponents (run .plain withoutComponents [targetF]).tree := by
  refine ⟨rfl, ?_⟩
  obtain ⟨outcome, houtcome, hiff⟩ := failed_and_touched_at_iff .plain withoutComponents [targetF] 0 (t := targetF) rfl
  have hstatus : ((run .plain withoutComponents [targetF]).report.results[0]?.map (·.status)) = some .failed := by
    decide +kernel
  rw [houtcome] at hstatus
  have htouched : (run .plain withoutComponents [targetF]).tree ≠ withoutComponents := by decide +kernel
  exact (hiff.mp ⟨Option.some.inj hstatus, htouched⟩).1

end Batch

end Redeclare

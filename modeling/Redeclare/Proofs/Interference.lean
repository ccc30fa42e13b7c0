import Redeclare.Proofs.Locality

/-!
# No interference between files

The targets of one file do not notice the others: a batch, and the batch of those of its targets alone whose paths lead
to the file, leave the same in it and have the same outcomes for these targets. Two runs are compared, over lists of
different lengths, and on hosts that may draw different names for the new files. Their trees stay alike and have the
same at the location of the file; a target of the file keeps this because it does the same in both trees, and any other
because it leaves the location alone, whether or not it fails. What an outcome can tell of a drawn name is the wording
of a refusal to open the new file, and there it is the only difference.
-/

namespace Redeclare

/-- The path of a target leads to a location. -/
def Target.leadsTo (tree : FileTree) (loc : Location) (t : Target) : Bool := decide (tree.find t.path = .ok loc)

namespace Batch

variable {a b tree : FileTree} {loc : Location} {host other : Host} {targets : List Target} {t : Target} {i : Nat}

/-- The targets of a location are the same in trees that are alike. -/
theorem leadsTo_congr (h : FileTree.Alike a b) : Target.leadsTo a loc = Target.leadsTo b loc := by
  funext t
  rw [Target.leadsTo, Target.leadsTo, h.shape.find]

/-- A batch in a tree, and its targets of a location alone in a tree that is alike and has the same there, leave the
same there. By induction on the targets. -/
theorem entry?_run_filter (ha : a.WellFormed) (halike : FileTree.Alike a b) (hentry : a.entry? loc = b.entry? loc)
    (hagrees : host.Agrees other) (targets : List Target) :
    (run host a targets).tree.entry? loc =
      (run other b (targets.filter (Target.leadsTo a loc))).tree.entry? loc := by
  induction targets generalizing a b host other with
  | nil => exact hentry
  | cons t rest ih =>
    have hstep := t.request.alike_run ha host
    have ha' := hstep.shape.wellFormed ha
    rw [tree_run_cons]
    by_cases hleads : Target.leadsTo a loc t = true
    · -- both runs take the target
      have hfind : a.find t.request.path = .ok loc := of_decide_eq_true hleads
      have hb := halike.shape.wellFormed ha
      obtain ⟨-, hsame⟩ := Request.run_congr ha halike hentry hfind host
      have halike' := hstep.symm.trans (halike.trans (t.request.alike_run hb host))
      rw [List.filter_cons_of_pos hleads, tree_run_cons, (t.request.run_of_agrees hb hagrees).1, leadsTo_congr hstep]
      exact ih ha' halike' hsame (hagrees.after 1 1)
    · -- only the first run takes the target, and leaves the location alone
      have hother : a.find t.request.path ≠ .ok loc := fun hfind => hleads (decide_eq_true hfind)
      have hsame := (Request.entry?_run_of_find_ne ha hother host).trans hentry
      rw [List.filter_cons_of_neg hleads, leadsTo_congr hstep]
      exact ih ha' (hstep.symm.trans halike) hsame ⟨hagrees.fault, hagrees.room⟩

/-- What passes a filter is found in the filtered list after so many as pass it before. -/
theorem getElem?_filter {p : Target → Bool} (h : targets[i]? = some t) (ht : p t = true) :
    (targets.filter p)[(targets.take i).countP p]? = some t ∧
      (targets.filter p).take ((targets.take i).countP p) = (targets.take i).filter p := by
  obtain ⟨hi, rfl⟩ := List.getElem?_eq_some_iff.mp h
  have hsplit : targets.filter p = (targets.take i).filter p ++ targets[i] :: (targets.drop (i + 1)).filter p := by
    rw [← List.filter_cons_of_pos ht, ← List.filter_append, ← List.drop_eq_getElem_cons hi, List.take_append_drop]
  rw [hsplit, List.countP_eq_length_filter]
  exact ⟨by simp, List.take_left⟩

/-- In a tree of files, whatever the other targets are and whatever becomes of them: the targets whose paths lead to a
location, taken alone, leave the same there as the whole batch, and each of them, the one at position `i` of the batch
being the one after so many as come before it, has the same outcome. The outcomes are alike whatever names are drawn for
new files in the two runs, and one is just the other when the same is drawn for it. A batch has one outcome for each
target. -/
theorem run_filter_leadsTo (hwell : tree.WellFormed) (hagrees : host.Agrees other) (targets : List Target)
    (loc : Location) :
    (run other tree (targets.filter (Target.leadsTo tree loc))).tree.entry? loc =
        (run host tree targets).tree.entry? loc ∧
      (∀ i t, targets[i]? = some t → Target.leadsTo tree loc t = true →
        ∃ j outcome outcome', j = (targets.take i).countP (Target.leadsTo tree loc) ∧
          (targets.filter (Target.leadsTo tree loc))[j]? = some t ∧
          (run host tree targets).report.results[i]? = some outcome ∧
          (run other tree (targets.filter (Target.leadsTo tree loc))).report.results[j]? = some outcome' ∧
          outcome.Alike outcome' ∧ (other.seeds j = host.seeds i → outcome = outcome')) ∧
      (run host tree targets).report.results.length = targets.length ∧
      (run other tree (targets.filter (Target.leadsTo tree loc))).report.results.length =
        (targets.filter (Target.leadsTo tree loc)).length := by
  have hentry : ∀ targets : List Target, (run host tree targets).tree.entry? loc =
      (run other tree (targets.filter (Target.leadsTo tree loc))).tree.entry? loc :=
    entry?_run_filter hwell (.refl tree) rfl hagrees
  refine ⟨(hentry targets).symm, ?_, length_results host tree targets, length_results other tree _⟩
  intro i t hi hleads
  obtain ⟨hj, htake⟩ := getElem?_filter hi hleads
  obtain ⟨hresult, -⟩ := run_position host tree hi
  obtain ⟨hresult', -⟩ := run_position other tree hj
  refine ⟨_, _, _, rfl, hj, hresult, hresult', ?_⟩
  -- both are tried in trees that are alike and have the same at the location
  rw [htake, outcome_tryTarget, outcome_tryTarget]
  have hbefore := alike_run hwell host (targets.take i)
  have hbefore' := alike_run hwell other ((targets.take i).filter (Target.leadsTo tree loc))
  have ha := hbefore.shape.wellFormed hwell
  have hb := hbefore'.shape.wellFormed hwell
  have hfind : FileTree.find (run host tree (targets.take i)).tree t.request.path = .ok loc := by
    rw [← hbefore.shape.find]
    exact of_decide_eq_true hleads
  rw [(Request.run_congr ha (hbefore.symm.trans hbefore') (hentry _) hfind (host.after i)).1]
  have hafter := hagrees.after i ((targets.take i).countP (Target.leadsTo tree loc))
  refine ⟨t.record_alike (t.request.run_of_agrees hb hafter).2, ?_⟩
  intro hseed
  rw [Request.run_of_seed hafter (by simpa [Host.after] using hseed)]

/-- A tree with two artifacts and a link to the first. The function `f` of the second takes a tuple with no list of
components. -/
def twoArtifacts : FileTree where
  entries :=
    [([Text.ofString "A.json"],
        .file 0o640 (Utf8.encodeChars "\x7b\"abi\":[\x7b\"type\":\"function\",\"name\":\"f\"\x7d]\x7d".toList)),
      ([Text.ofString "B.json"],
        .file 0o644 (Utf8.encodeChars ("\x7b\"abi\":[\x7b\"type\":\"function\",\"name\":\"f\"," ++
          "\"inputs\":[\x7b\"type\":\"tuple\",\"components\":null\x7d]\x7d]\x7d").toList)),
      ([Text.ofString "link"], .link (Text.ofString "./A.json"))]
  here := []

/-- Targets of both artifacts and of none; the first one fails after it wrote. -/
def mixedTargets : List Target :=
  [targetIn "B.json" "f", targetIn "link" "f", targetIn "gone" "f", targetIn "A.json" "g"]

theorem run_filter_leadsTo_twoArtifacts :
    (run .plain twoArtifacts mixedTargets).report.results.map (·.status) = [.failed, .patched, .failed, .notFound] ∧
      (run .inTurn twoArtifacts [targetIn "link" "f", targetIn "A.json" "g"]).tree.entry? [Text.ofString "A.json"] =
        (run .plain twoArtifacts mixedTargets).tree.entry? [Text.ofString "A.json"] ∧
      (∃ outcome outcome', (run .plain twoArtifacts mixedTargets).report.results[3]? = some outcome ∧
        (run .inTurn twoArtifacts [targetIn "link" "f", targetIn "A.json" "g"]).report.results[1]? = some outcome' ∧
          outcome.Alike outcome') ∧
      (run .inTurn twoArtifacts [targetIn "link" "f", targetIn "A.json" "g"]).report.results.length = 2 := by
  have hfilter : mixedTargets.filter (Target.leadsTo twoArtifacts [Text.ofString "A.json"]) =
      [targetIn "link" "f", targetIn "A.json" "g"] := by
    decide +kernel
  obtain ⟨htree, houtcome, -, hlength⟩ := run_filter_leadsTo (show twoArtifacts.WellFormed by decide +kernel)
    (show Host.plain.Agrees .inTurn from ⟨rfl, rfl⟩) mixedTargets [Text.ofString "A.json"]
  have hbefore : (mixedTargets.take 3).countP (Target.leadsTo twoArtifacts [Text.ofString "A.json"]) = 1 := by
    decide +kernel
  obtain ⟨j, outcome, outcome', hj, -, hresult, hresult', halike, -⟩ := houtcome 3 (targetIn "A.json" "g") rfl
    (by decide +kernel)
  rw [hbefore] at hj
  subst hj
  rw [hfilter] at htree hresult' hlength
  exact ⟨by decide +kernel, htree, ⟨outcome, outcome', hresult, hresult', halike⟩, hlength⟩

end Batch

end Redeclare

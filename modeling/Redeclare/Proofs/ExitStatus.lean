import Redeclare.Program
import Redeclare.Proofs.Reports

/-!
# The exit status

A run of the program is refused before anything is touched, or it attempts every target of its manifest, each in the
tree that the one before it left, and its exit status says whether all attempts came to an outcome. A batch always has a
report, with one outcome for each target, and every outcome passes the checks of its record. The counts that a run ends
with sum up the report.
-/

namespace Redeclare

/-! ## Outcomes as records -/

namespace Outcome

/-- A text that may be missing, as a value. -/
def optional : Option Text → Json
  | some t => .str t
  | none => .null

/-- The fields of an outcome, as members. -/
def members (o : Outcome) : Members :=
  [(pathName, .str o.path.toText), (functionName, .str o.function), (statusName, .str o.status.name),
    (previousName, optional o.previous), (selectorName, optional o.selector), (errorName, optional o.error)]

theorem status_name (s : Status) : Checked.status (.str s.name) = .ok s := by
  cases s <;> rfl

theorem text?_optional {name : Text} {value : Option Text} {members : Members}
    (h : Members.get? name members = some (optional value)) : Checked.text? name members = .ok value := by
  rw [Checked.text?, h]
  cases value <;> rfl

/-- Every outcome passes the checks of its record. -/
theorem ofMembers_members (o : Outcome) : ofMembers o.members = .ok { o with path := Path.parse o.path.toText } := by
  have hpath : Checked.required pathName Checked.path o.members = .ok (Path.parse o.path.toText) := rfl
  have hfunction : Checked.required functionName Checked.text o.members = .ok o.function := rfl
  have hstatus : Checked.required statusName Checked.status o.members = .ok o.status := by
    have hget : Members.get? statusName o.members = some (.str o.status.name) := rfl
    simp only [Checked.required, hget, status_name]
    rfl
  have hprevious : Checked.text? previousName o.members = .ok o.previous := text?_optional rfl
  have hselector : Checked.text? selectorName o.members = .ok o.selector := text?_optional rfl
  have herror : Checked.text? errorName o.members = .ok o.error := text?_optional rfl
  simp only [ofMembers, hpath, hfunction, hstatus, hprevious, hselector, herror, Checked.and, Checked.as]

end Outcome

/-! ## Attempts -/

namespace Batch

/-- Targets are attempted one after another, each in the tree that the one before it left, and with numbers that have
not been drawn before. -/
inductive Attempted : Host → FileTree → List Target → List (Except Failure Outcome) → FileTree → Prop
  | done {host : Host} {tree : FileTree} : Attempted host tree [] [] tree
  | next {host : Host} {tree after : FileTree} {t : Target} {rest : List Target}
      {results : List (Except Failure Outcome)} :
      Attempted (host.after 1) (t.request.run host tree).tree rest results after →
      Attempted host tree (t :: rest) ((t.request.run host tree).result :: results) after

variable {host : Host} {tree after : FileTree} {targets : List Target}
  {results : List (Except Failure Outcome)}

/-- A batch attempts all of its targets and records what comes of them. -/
theorem exists_attempted (host : Host) (tree : FileTree) (targets : List Target) :
    ∃ results, Attempted host tree targets results (run host tree targets).tree ∧
      (run host tree targets).report.results = List.zipWith Target.record targets results := by
  induction targets generalizing host tree with
  | nil => exact ⟨[], .done, rfl⟩
  | cons t rest ih =>
    obtain ⟨results, hattempted, hresults⟩ := ih (host.after 1) (t.request.run host tree).tree
    refine ⟨(t.request.run host tree).result :: results, ?_, ?_⟩
    · rw [tree_run_cons]
      exact .next hattempted
    · rw [results_run_cons, hresults, List.zipWith_cons_cons]

/-- What is recorded of a target is of its path and its function. -/
theorem target_record (host : Host) (tree : FileTree) (t : Target) :
    (t.record (t.request.run host tree).result).path = t.path ∧
      (t.record (t.request.run host tree).result).function = t.function := by
  cases hresult : (t.request.run host tree).result with
  | error f => exact ⟨rfl, rfl⟩
  | ok outcome => exact Request.target_of_result rfl hresult

/-- A target is recorded as failed when its attempt came to no outcome. -/
theorem failed_record (host : Host) (tree : FileTree) (t : Target) :
    (t.record (t.request.run host tree).result).status = .failed ↔
      ¬∃ o, (t.request.run host tree).result = .ok o := by
  rw [← outcome_tryTarget, status_tryTarget]
  cases (t.request.run host tree).result <;> simp

theorem Attempted.targets_record (h : Attempted host tree targets results after) :
    (List.zipWith Target.record targets results).map (fun o => (o.path, o.function)) =
      targets.map fun t => (t.path, t.function) := by
  induction h with
  | done => rfl
  | @next host tree _ t _ _ _ ih =>
    obtain ⟨hpath, hfunction⟩ := target_record host tree t
    rw [List.zipWith_cons_cons, List.map_cons, List.map_cons, hpath, hfunction, ih]

theorem Attempted.none_failed_iff (h : Attempted host tree targets results after) :
    (∀ o ∈ List.zipWith Target.record targets results, o.status ≠ .failed) ↔
      ∀ result ∈ results, ∃ o, result = .ok o := by
  induction h with
  | done => simp
  | @next host tree _ t _ _ _ ih =>
    rw [List.zipWith_cons_cons, List.forall_mem_cons, List.forall_mem_cons, ih, ne_eq, failed_record, not_not]

end Batch

/-! ## Reports -/

namespace Report

/-- The outcomes of a report are of functions that were found, of functions that were missing, and of failures. -/
theorem found_add_missing_add_failed (r : Report) :
    r.results.countP (fun o => o.status = .patched ∨ o.status = .unchanged) + r.missing.length + r.failed.length =
      r.results.length := by
  obtain ⟨results⟩ := r
  simp only [missing, failed]
  induction results with
  | nil => rfl
  | cons o rest ih =>
    rw [List.countP_cons, List.filter_cons, List.filter_cons, List.length_cons, ← ih]
    cases o.status <;> simp <;> omega

/-- What is taken from the number of outcomes is never more than it. -/
theorem patchedCount_eq (r : Report) :
    r.patchedCount = r.results.countP fun o => o.status = .patched ∨ o.status = .unchanged := by
  have hlength := r.found_add_missing_add_failed
  rw [patchedCount]
  omega

/-- A report of attempts: one outcome for each target, in order, that records what came of the attempt, is of the path
and the function of the target, and passes the checks of its record. The counts of the report are all its targets, and
the first is that of the functions that were found. -/
structure Tells (r : Report) (targets : List Target) (results : List (Except Failure Outcome)) : Prop where
  records : r.results = List.zipWith Target.record targets results
  named : r.results.map (fun o => (o.path, o.function)) = targets.map fun t => (t.path, t.function)
  checked : ∀ o ∈ r.results, Outcome.ofMembers o.members = .ok { o with path := Path.parse o.path.toText }
  ok : r.isOk = true ↔ ∀ result ∈ results, ∃ o, result = .ok o
  counts : r.patchedCount + r.missing.length + r.failed.length = targets.length
  patched : r.patchedCount = r.results.countP fun o => o.status = .patched ∨ o.status = .unchanged

theorem isOk_iff (r : Report) : r.isOk = true ↔ ∀ o ∈ r.results, o.status ≠ .failed := by
  simp [isOk, failed, List.filter_eq_nil_iff]

/-- All attempts came to an outcome, or one of them failed; the report tells which. -/
theorem Tells.isOk_cases {r : Report} {targets : List Target} {results : List (Except Failure Outcome)}
    (h : r.Tells targets results) :
    (r.isOk = true ∧ ∀ result ∈ results, ∃ o, result = .ok o) ∨
      (r.isOk = false ∧ ∃ result ∈ results, ∃ f, result = .error f) := by
  cases hok : r.isOk with
  | true => exact .inl ⟨rfl, h.ok.mp hok⟩
  | false =>
    have hsome : ¬∀ result ∈ results, ∃ o, result = .ok o := by simp [← h.ok, hok]
    simp only [not_forall] at hsome
    obtain ⟨result, hresult, hfailed⟩ := hsome
    cases result with
    | ok o => exact absurd ⟨o, rfl⟩ hfailed
    | error f => exact .inr ⟨rfl, _, hresult, f, rfl⟩

end Report

/-- Every batch has a report of its attempts. -/
theorem Batch.exists_tells (host : Host) (tree : FileTree) (targets : List Target) :
    ∃ results, Attempted host tree targets results (run host tree targets).tree ∧
      (run host tree targets).report.Tells targets results := by
  obtain ⟨results, hattempted, hrecords⟩ := exists_attempted host tree targets
  have hcounts := (run host tree targets).report.found_add_missing_add_failed
  rw [← Report.patchedCount_eq, Batch.length_results] at hcounts
  refine ⟨results, hattempted, hrecords, ?_, fun o _ => o.ofMembers_members, ?_, hcounts, Report.patchedCount_eq _⟩
  · rw [hrecords, hattempted.targets_record]
  · rw [Report.isOk_iff, hrecords, hattempted.none_failed_iff]

/-! ## The manifest -/

namespace Text

theorem chars?_eq_none_iff {t : Text} : t.chars? = none ↔ ∃ u, .lone u ∈ t := by
  induction t with
  | nil => simp [chars?]
  | cons p rest ih => cases p <;> simp [chars?, ih]

theorem chars?_eq_some_nil_iff {t : Text} : t.chars? = some [] ↔ t = [] := by
  cases t with
  | nil => simp [chars?]
  | cons p rest => cases p <;> simp [chars?]

end Text

namespace Settings

/-- A manifest of texts. -/
def manifestOf (entries : List (Text × Text)) : Manifest :=
  entries.map fun (contract, function) => (.str contract, .str function)

/-- The targets of a manifest of texts. -/
def targetsOf (s : Settings) (entries : List (Text × Text)) : List Target :=
  entries.map fun (contract, function) => ⟨s.artifact (.str contract), function⟩

/-- A name of a function of which no target is made: it is empty, or holds a lone surrogate. -/
def Unusable (function : Text) : Prop := function = [] ∨ ∃ u, .lone u ∈ function

variable {s : Settings} {entries : List (Text × Text)}

theorem manifestOf_cons {contract function : Text} :
    manifestOf ((contract, function) :: entries) = (.str contract, .str function) :: manifestOf entries := rfl

theorem targetsOf_cons {contract function : Text} :
    s.targetsOf ((contract, function) :: entries) = ⟨s.artifact (.str contract), function⟩ :: s.targetsOf entries := rfl

/-- A name that is not usable makes no target. -/
theorem target_of_unusable (s : Settings) (contract : Json) {function : Text} (h : Unusable function) :
    ∃ e, s.target contract (.str function) = .error e := by
  rcases h with rfl | hlone
  · exact ⟨_, rfl⟩
  · refine ⟨.invalid ⟨.target, [⟨[Outcome.functionName], .notUnicode⟩]⟩, ?_⟩
    simp [target, Target.make, Checked.someText, Text.chars?_eq_none_iff.mpr hlone, Checked.refuse, Checked.within]

/-- Every other name makes one. -/
theorem target_of_usable {contract : Json} {function : Text} (h : ¬Unusable function) :
    s.target contract (.str function) = .ok ⟨s.artifact contract, function⟩ := by
  obtain ⟨hne, hlone⟩ := not_or.mp h
  obtain ⟨cs, hcs⟩ := Option.ne_none_iff_exists'.mp (mt Text.chars?_eq_none_iff.mp hlone)
  have hnonempty : cs ≠ [] := by
    rintro rfl
    exact hne (Text.chars?_eq_some_nil_iff.mp hcs)
  obtain ⟨c, rest, rfl⟩ := List.exists_cons_of_ne_nil hnonempty
  simp [target, Target.make, Checked.someText, hcs, Checked.within]

/-- Functions that have usable names make targets, in order. -/
theorem targets_manifestOf (h : ∀ entry ∈ entries, ¬Unusable entry.2) :
    s.targets (manifestOf entries) = .ok (s.targetsOf entries) := by
  induction entries with
  | nil => rfl
  | cons entry rest ih =>
    obtain ⟨contract, function⟩ := entry
    rw [List.forall_mem_cons] at h
    rw [manifestOf_cons, targetsOf_cons, targets]
    simp only [target_of_usable h.1, ih h.2]

/-- With a function whose name is not usable there are no targets. -/
theorem targets_manifestOf_error (s : Settings) (h : ∃ entry ∈ entries, Unusable entry.2) :
    ∃ e, s.targets (manifestOf entries) = .error e := by
  induction entries with
  | nil => simp at h
  | cons entry rest ih =>
    obtain ⟨contract, function⟩ := entry
    rw [manifestOf_cons, targets]
    by_cases hname : Unusable function
    · obtain ⟨e, he⟩ := target_of_unusable s (.str contract) hname
      simp only [he]
      exact ⟨e, rfl⟩
    · obtain ⟨e, he⟩ := ih (by simpa [hname] using h)
      simp only [target_of_usable hname, he]
      exact ⟨e, rfl⟩

end Settings

/-! ## The level -/

namespace Level

/-- The names of the levels that are known. -/
def known : List Text :=
  ["CRITICAL", "FATAL", "ERROR", "WARN", "WARNING", "INFO", "DEBUG", "NOTSET"].map Text.ofString

/-- A level has a threshold when its name is one of those that are known. -/
theorem threshold?_eq_none_iff {name : Text} : threshold? name = none ↔ name ∉ known := by
  have hknown : thresholds.map (·.1) = known := rfl
  simp only [threshold?, Option.map_eq_none_iff, List.find?_eq_none, ← hknown, List.mem_map, beq_iff_eq, not_exists,
    not_and]

/-- The level that an environment asks for: its variable in upper case, or `INFO` when that is not set. -/
def inForce (env : Environment) : Text :=
  UpperCase.ofText ((env.get? (Text.ofString "LOG_LEVEL")).getD (Text.ofString "INFO"))

end Level

/-! ## The program -/

namespace Program

/-- A run is refused when the level is unknown or the name of a function of the manifest is not usable. -/
def Refused (env : Environment) (entries : List (Text × Text)) : Prop :=
  Level.inForce env ∉ Level.known ∨ ∃ entry ∈ entries, Settings.Unusable entry.2

/-- The targets of a manifest in an environment: for each contract, the artifact in the directory of its source, which
is in the directory of artifacts. -/
def targetsIn (env : Environment) (entries : List (Text × Text)) : List Target :=
  entries.map fun entry =>
    ⟨Path.parse ((env.get? (Text.ofString "FOUNDRY_OUT")).getD (Text.ofString "out")) ++
        Path.parse (entry.1 ++ Text.ofString ".sol") ++ Path.parse (entry.1 ++ Text.ofString ".json"), entry.2⟩

variable {env : Environment} {entries : List (Text × Text)}

/-- A run that is refused touches nothing and has no exit status. -/
theorem run_of_refused (h : Refused env entries) (batchName : Text) (host : Host) (tree : FileTree) :
    ∃ f, run (Settings.ofEnvironment env) (Settings.manifestOf entries) batchName host tree = ⟨tree, [], .error f⟩ := by
  rw [run]
  cases hthreshold : Level.threshold? (Settings.ofEnvironment env).level with
  | none => exact ⟨_, rfl⟩
  | some threshold =>
    rcases h with hlevel | hname
    · rw [show (Settings.ofEnvironment env).level = Level.inForce env from rfl,
        Level.threshold?_eq_none_iff.mpr hlevel] at hthreshold
      cases hthreshold
    · obtain ⟨e, he⟩ := Settings.targets_manifestOf_error (Settings.ofEnvironment env) hname
      simp only [he]
      exact ⟨e, rfl⟩

/-- A run that is not refused is that of its batch. -/
theorem run_of_not_refused (h : ¬Refused env entries) (batchName : Text) (host : Host) (tree : FileTree) :
    ∃ threshold, Level.threshold? (Level.inForce env) = some threshold ∧
      run (Settings.ofEnvironment env) (Settings.manifestOf entries) batchName host tree =
        let result := Batch.run host tree (targetsIn env entries)
        ⟨result.tree, heard threshold batchName (result.events ++ [summary result.report]),
          .ok (if result.report.isOk then 0 else 1)⟩ := by
  obtain ⟨hlevel, hnames⟩ := not_or.mp h
  obtain ⟨threshold, hthreshold⟩ := Option.ne_none_iff_exists'.mp (mt Level.threshold?_eq_none_iff.mp hlevel)
  refine ⟨threshold, hthreshold, ?_⟩
  rw [run, show (Settings.ofEnvironment env).level = Level.inForce env from rfl, hthreshold]
  simp only [Settings.targets_manifestOf fun entry hentry hname => hnames ⟨entry, hentry, hname⟩]
  rfl

/-- For every environment, as it is once the file of variables was loaded, every manifest of texts, every tree, and
every host of the machine: a run comes to no status exactly when it is refused, because the level is unknown or the name
of a function is empty or holds a lone surrogate, and then the tree is as it was. Otherwise every target is attempted,
each in the tree that the one before it left, and the status is zero when all attempts came to an outcome, and one when
one of them failed. The last event sums up the report of the batch; and every batch, also one with targets that no
manifest names, has a report that tells of its attempts. -/
theorem status_tells (env : Environment) (entries : List (Text × Text)) (batchName : Text) (host : Host)
    (tree : FileTree) :
    let targets := targetsIn env entries
    let report := (Batch.run host tree targets).report
    let ending := run (Settings.ofEnvironment env) (Settings.manifestOf entries) batchName host tree
    ((∃ f, ending.status = .error f) ↔ Refused env entries) ∧
      (Refused env entries → ending.tree = tree) ∧
      (¬Refused env entries →
        ∃ results threshold, Batch.Attempted host tree targets results ending.tree ∧ report.Tells targets results ∧
          ((ending.status = .ok 0 ∧ ∀ result ∈ results, ∃ o, result = .ok o) ∨
            (ending.status = .ok 1 ∧ ∃ result ∈ results, ∃ f, result = .error f)) ∧
          Level.threshold? (Level.inForce env) = some threshold ∧
          ending.lines = heard threshold batchName ((Batch.run host tree targets).events ++
            [.finished report.patchedCount report.missing.length report.failed.length])) ∧
      ∀ targets, ∃ results, Batch.Attempted host tree targets results (Batch.run host tree targets).tree ∧
        (Batch.run host tree targets).report.Tells targets results := by
  intro targets report ending
  by_cases hrefused : Refused env entries
  · obtain ⟨f, hrun⟩ := run_of_refused hrefused batchName host tree
    have hending : ending = ⟨tree, [], .error f⟩ := hrun
    refine ⟨?_, ?_, fun h => absurd hrefused h, Batch.exists_tells host tree⟩
    · simp [hending, hrefused]
    · simp [hending]
  · obtain ⟨threshold, hthreshold, hrun⟩ := run_of_not_refused hrefused batchName host tree
    obtain ⟨results, hattempted, htells⟩ := Batch.exists_tells host tree targets
    have hending : ending = _ := hrun
    refine ⟨?_, fun h => absurd h hrefused, fun _ => ?_, Batch.exists_tells host tree⟩
    · simp [hending, hrefused]
    · rw [hending]
      refine ⟨results, threshold, hattempted, htells, ?_, hthreshold, rfl⟩
      rcases htells.isOk_cases with ⟨hok, hall⟩ | ⟨hok, hsome⟩
      · exact .inl ⟨congrArg Except.ok (if_pos hok), hall⟩
      · exact .inr ⟨congrArg Except.ok (if_neg (ne_true_of_eq_false hok)), hsome⟩

/-- A manifest with a function whose name is a lone surrogate. -/
def loneFunction : List (Text × Text) := [(Text.ofString "C", [.lone 0])]

/-- A run is also refused for a name that is not empty. -/
theorem status_loneFunction :
    ¬∀ (env : Environment) (entries : List (Text × Text)) (batchName : Text) (host : Host) (tree : FileTree),
      (∃ f, (run (Settings.ofEnvironment env) (Settings.manifestOf entries) batchName host tree).status = .error f) ↔
        Level.inForce env ∉ Level.known ∨ ∃ entry ∈ entries, entry.2 = [] := by
  intro h
  have hrefused : (run (Settings.ofEnvironment []) (Settings.manifestOf loneFunction) Source.mainName .plain
      ⟨[], []⟩).status.isOk = false := by
    decide +kernel
  have hneither : ¬(Level.inForce [] ∉ Level.known ∨ ∃ entry ∈ loneFunction, entry.2 = []) := by
    decide +kernel
  rw [← h [] loneFunction Source.mainName .plain ⟨[], []⟩] at hneither
  cases hstatus : (run (Settings.ofEnvironment []) (Settings.manifestOf loneFunction) Source.mainName .plain
      ⟨[], []⟩).status with
  | error f => exact hneither ⟨f, hstatus⟩
  | ok status =>
    rw [hstatus] at hrefused
    cases hrefused

/-- An environment with a level in lower case, and a directory of artifacts that is not there. -/
def lowerCase : Environment :=
  [(Text.ofString "LOG_LEVEL", Text.ofString "error"), (Text.ofString "FOUNDRY_OUT", Text.ofString "gone")]

/-- A function of a contract whose artifact is not there. -/
def absentFunction : List (Text × Text) := [(Text.ofString "C", Text.ofString "f")]

theorem status_tells_lowerCase :
    (run (Settings.ofEnvironment lowerCase) (Settings.manifestOf absentFunction) Source.mainName .plain
        ⟨[], []⟩).status = .ok 1 ∧
      (run (Settings.ofEnvironment lowerCase) (Settings.manifestOf absentFunction) Source.mainName .plain
        ⟨[], []⟩).lines = [Text.ofString "ERROR __main__: Failed to patch f in gone/C.sol/C.json"] ∧
      ∃ results, Batch.Attempted .plain ⟨[], []⟩
        [⟨⟨.relative, ["gone", "C.sol", "C.json"].map Text.ofString⟩, Text.ofString "f"⟩] results ⟨[], []⟩ ∧
          ∃ result ∈ results, ∃ f, result = .error f := by
  have hrefused : ¬Refused lowerCase absentFunction := by
    rintro (hlevel | ⟨entry, hentry, hname⟩)
    · exact hlevel (by decide +kernel)
    · obtain rfl := List.mem_singleton.mp hentry
      rcases hname with hempty | ⟨u, hu⟩
      · exact absurd hempty (by decide)
      · exact Text.lone_not_mem_ofString u _ hu
  obtain ⟨-, -, htells, -⟩ := status_tells lowerCase absentFunction Source.mainName .plain ⟨[], []⟩
  obtain ⟨results, threshold, hattempted, -, hstatus, -⟩ := htells hrefused
  obtain ⟨hone, hlines, htree, htargets⟩ :
      (run (Settings.ofEnvironment lowerCase) (Settings.manifestOf absentFunction) Source.mainName .plain
          ⟨[], []⟩).status.toOption = some 1 ∧
        (run (Settings.ofEnvironment lowerCase) (Settings.manifestOf absentFunction) Source.mainName .plain
          ⟨[], []⟩).lines = [Text.ofString "ERROR __main__: Failed to patch f in gone/C.sol/C.json"] ∧
        (run (Settings.ofEnvironment lowerCase) (Settings.manifestOf absentFunction) Source.mainName .plain
          ⟨[], []⟩).tree = ⟨[], []⟩ ∧
        targetsIn lowerCase absentFunction =
          [⟨⟨.relative, ["gone", "C.sol", "C.json"].map Text.ofString⟩, Text.ofString "f"⟩] := by
    decide +kernel
  rw [htree, htargets] at hattempted
  rw [eq_ok_of_toOption hone] at hstatus ⊢
  rcases hstatus with ⟨hzero, -⟩ | ⟨-, hfailed⟩
  · cases hzero
  · exact ⟨rfl, hlines, results, hattempted, hfailed⟩

end Program

end Redeclare

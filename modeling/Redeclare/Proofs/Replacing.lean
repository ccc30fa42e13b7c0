import Redeclare.Artifact
import Redeclare.Proofs.Names
import Redeclare.Proofs.Resolution

/-!
# Replacing files

A replacement ends in one of two ways, whatever call is made to fail and whatever the tree is like: with a failure and
the tree as it was, or with the encoded text at the target. In a tree of files, a replacement of a file that the system
finds keeps its mode, leaves every other entry alone, and the paths lead where they led. It succeeds exactly when no
call is made to fail, there is room for the new file, and the text can be encoded; why it fails does not depend on what
any file holds, nor on the name that is drawn for the new file, but for this name in its wording.
-/

namespace Redeclare.FileTree

variable {tree : FileTree} {beside target : Location} {text : Text} {fault : Option Fault} {seed : Nat}

/-! ## Steps -/

/-- A new file is created where nothing was, with a candidate for its name and in the directory that the target is
in. -/
theorem createBeside_spec {created : FileTree} (h : createBeside seed tree target = .ok (created, beside)) :
    ∃ dir n, tree.directoryOf target = .ok dir ∧ beside = dir ++ [besideName (lastName target) n] ∧
      tree.entry? beside = none ∧ created = tree.set beside (.file 0o600 []) := by
  unfold createBeside at h
  simp only at h
  split at h
  · cases h
  split at h
  · cases h
  rename_i dir hdir
  split at h
  · cases h
  split at h
  · rename_i n hfree
    cases h
    exact ⟨dir, n, hdir, rfl, free_of_freeNumber? hfree, rfl⟩
  · cases h

/-- The new file is filled with the encoded text. -/
theorem fill_spec {next : FileTree} (h : fill fault beside text tree = .ok next) :
    ∃ bytes, Utf8.encode text = .ok bytes ∧ next = tree.set beside (.file 0o600 bytes) := by
  unfold fill at h
  split at h
  · cases h
  split at h
  · rename_i bytes hbytes
    cases h
    exact ⟨bytes, hbytes, rfl⟩
  · cases h

theorem setMode_set (h : beside ≠ []) (m mode : Nat) (bytes : Utf8.Bytes) :
    (tree.set beside (.file m bytes)).setMode beside mode = tree.set beside (.file mode bytes) := by
  rw [setMode, entry?_set_self h]
  exact set_set tree beside _ _

/-- The new file takes over the mode of the target, if there is one. -/
theorem takeMode_spec {give : FileTree → Nat → Except Failure FileTree} {next : FileTree} {m : Nat} {bytes : Utf8.Bytes}
    (hgive : ∀ mode next, give (tree.set beside (.file m bytes)) mode = .ok next →
      next = tree.set beside (.file mode bytes))
    (h : takeMode give target (tree.set beside (.file m bytes)) = .ok next) :
    ∃ found, (tree.set beside (.file m bytes)).modeOf? target = .ok found ∧
      next = tree.set beside (.file (found.getD m) bytes) := by
  unfold takeMode at h
  split at h
  · cases h
  · rename_i hfound
    cases h
    exact ⟨none, hfound, rfl⟩
  · rename_i mode hfound
    exact ⟨some mode, hfound, hgive mode next h⟩

/-- The new file is moved over the target, which is no directory. -/
theorem move_spec {next : FileTree} {m : Nat} {bytes : Utf8.Bytes} (hfresh : tree.entry? beside = none)
    (h : move beside target (tree.set beside (.file m bytes)) = .ok next) :
    ∃ dir, target ≠ [] ∧ (tree.set beside (.file m bytes)).directoryOf target = .ok dir ∧
      entry? (tree.set beside (.file m bytes)) (dir ++ [lastName target]) ≠ some .dir ∧
      next = tree.set (dir ++ [lastName target]) (.file m bytes) := by
  have hne := (lookup_of_entry?_none hfresh).1
  unfold move at h
  split at h
  · cases h
  rename_i htarget
  split at h
  · cases h
  rename_i dir hdir
  rw [entry?_set_self hne] at h
  split at h
  · cases h
  · rename_i hnone _
    cases hnone
  · rename_i e hmoved hnodir
    cases h
    cases hmoved
    refine ⟨dir, htarget, hdir, ?_, ?_⟩
    · intro hentry
      exact hnodir hentry
    · rw [remove_set hfresh]

/-! ## Sequences of steps -/

section
variable {step : Step} {next : FileTree} {e : Failure}

theorem attempt_of_ok (beside : Location) (rest : List Step) (h : step tree = .ok next) :
    (attempt beside (step :: rest) tree).tree = (attempt beside rest next).tree ∧
      (attempt beside (step :: rest) tree).failure = (attempt beside rest next).failure := by
  rw [attempt, h]
  exact ⟨rfl, rfl⟩

theorem attempt_of_error (beside : Location) (rest : List Step) (h : step tree = .error e) :
    (attempt beside (step :: rest) tree).tree = tree.remove beside ∧
      (attempt beside (step :: rest) tree).failure = some e := by
  rw [attempt, h]
  exact ⟨rfl, rfl⟩

end

/-- How a replacement ends: with a failure and the tree as it was, or with the encoded text at the target. The new file
took over the mode that was found at the target, and was moved to the directory that the target is in. -/
inductive Ended (tree : FileTree) (target : Location) (text : Text) (a : Attempt) : Prop
  | failed (e : Failure) : a.failure = some e → a.tree = tree → Ended tree target text a
  | done (beside dir : Location) (found : Option Nat) (bytes : Utf8.Bytes) : tree.entry? beside = none → target ≠ [] →
      Utf8.encode text = .ok bytes → (tree.set beside (.file 0o600 bytes)).modeOf? target = .ok found →
      (tree.set beside (.file (found.getD 0o600) bytes)).directoryOf target = .ok dir → a.failure = none →
      a.tree = tree.set (dir ++ [lastName target]) (.file (found.getD 0o600) bytes) → Ended tree target text a

/-- How a replacement ends shows in its failure and its tree. -/
theorem Ended.congr {a b : Attempt} (h : Ended tree target text a) (htree : b.tree = a.tree)
    (hfailure : b.failure = a.failure) : Ended tree target text b := by
  cases h with
  | failed e he hsame => exact .failed e (hfailure.trans he) (htree.trans hsame)
  | done beside dir found bytes hfresh hne hbytes hmode hdir he hdone =>
    exact .done beside dir found bytes hfresh hne hbytes hmode hdir (hfailure.trans he) (htree.trans hdone)

/-- An attempt that begins with a step that succeeded ends as what is left of it does. -/
theorem Ended.of_ok {step : Step} {rest : List Step} {now next : FileTree} (hstep : step now = .ok next)
    (h : Ended tree target text (attempt beside rest next)) :
    Ended tree target text (attempt beside (step :: rest) now) := by
  obtain ⟨htree, hfailure⟩ := attempt_of_ok beside rest hstep
  exact h.congr htree hfailure

/-- An attempt whose next step fails leaves the tree as it was without the new file. -/
theorem Ended.of_error {step : Step} {rest : List Step} {now : FileTree} {e : Failure} (hstep : step now = .error e)
    (hremove : now.remove beside = tree) : Ended tree target text (attempt beside (step :: rest) now) := by
  obtain ⟨htree, hfailure⟩ := attempt_of_error beside rest hstep
  exact .failed e hfailure (htree.trans hremove)

/-- A new file with the mode of the target and the encoded text is moved over the target, or it is removed. -/
theorem ended_move {bytes : Utf8.Bytes} {found : Option Nat} (hfresh : tree.entry? beside = none)
    (hbytes : Utf8.encode text = .ok bytes)
    (hfound : (tree.set beside (.file 0o600 bytes)).modeOf? target = .ok found) :
    Ended tree target text
      (attempt beside [move beside target] (tree.set beside (.file (found.getD 0o600) bytes))) := by
  cases hmove : move beside target (tree.set beside (.file (found.getD 0o600) bytes)) with
  | error e => exact .of_error hmove (remove_set hfresh)
  | ok moved =>
    obtain ⟨dir, hne, hdir, -, rfl⟩ := move_spec hfresh hmove
    exact .of_ok hmove (.done beside dir found bytes hfresh hne hbytes hfound hdir rfl rfl)

/-- Whatever call fails, the steps after a new file was created end in one of the two ways. -/
theorem ended_stepsAfter (fault : Option Fault) (target : Location) (text : Text) (hfresh : tree.entry? beside = none) :
    Ended tree target text
      (attempt beside (stepsAfter fault beside target text) (tree.set beside (.file 0o600 []))) := by
  have hbeside := (lookup_of_entry?_none hfresh).1
  unfold stepsAfter
  simp only [List.cons_append, List.nil_append]
  -- the new file is filled
  cases hfill : fill fault beside text (tree.set beside (.file 0o600 [])) with
  | error e => exact .of_error hfill (remove_set hfresh)
  | ok filled =>
    obtain ⟨bytes, hbytes, rfl⟩ := fill_spec hfill
    refine .of_ok hfill ?_
    rw [set_set]
    -- it takes over the mode
    generalize hgive : (fun (tree : FileTree) (mode : Nat) =>
      if fault = some .takeMode then (Except.error .diskFull : Except Failure FileTree)
      else .ok (tree.setMode beside mode)) = give
    cases hmode : takeMode give target (tree.set beside (.file 0o600 bytes)) with
    | error e => exact .of_error hmode (remove_set hfresh)
    | ok moded =>
      have hgives : ∀ mode next, give (tree.set beside (.file 0o600 bytes)) mode = .ok next →
          next = tree.set beside (.file mode bytes) := by
        intro mode next hnext
        rw [← hgive] at hnext
        simp only at hnext
        split at hnext
        · cases hnext
        · cases hnext
          exact setMode_set hbeside 0o600 mode bytes
      obtain ⟨found, hfound, rfl⟩ := takeMode_spec hgives hmode
      refine .of_ok hmode ?_
      split
      · exact .of_error rfl (remove_set hfresh)
      · -- the new file is gone already, and there is nothing left to remove
        refine .of_ok rfl (.of_error rfl ?_)
        rw [remove_set hfresh, remove_of_entry?_none hfresh]
      · exact ended_move hfresh hbytes hfound

/-- However a replacement goes, it ends in one of the two ways. -/
theorem ended_replaceAt (fault : Option Fault) (seed : Nat) (tree : FileTree) (target : Location) (text : Text) :
    Ended tree target text (replaceAt fault seed tree target text) := by
  unfold replaceAt
  split
  · rename_i e _
    exact .failed e rfl rfl
  · rename_i created beside hcreated
    obtain ⟨-, -, -, -, hfresh, rfl⟩ := createBeside_spec hcreated
    exact (ended_stepsAfter fault target text hfresh).congr rfl rfl

/-! ## Targets that are there -/

section
variable {loc : Location} {mode : Nat} {content : Utf8.Bytes} {large : FileTree}

/-- Also with more entries, the mode that is found at a file is the file's. -/
theorem modeOf?_of_extends (hwell : tree.WellFormed) (hfile : tree.entry? loc = some (.file mode content))
    (h : tree.Extends large) : large.modeOf? loc = .ok (some mode) := by
  have harrived := h.advance (hwell.arrived hfile fun target heq => nomatch heq)
  rw [modeOf?, walk_of_advance harrived]
  simp only [h loc _ hfile, Option.map_some, Entry.mode]

/-- Also with more entries, the directory that an entry is in is found where it is. -/
theorem directoryOf_of_extends (hwell : tree.WellFormed) {e : Entry} (hentry : tree.entry? loc = some e)
    (h : tree.Extends large) : large.directoryOf loc = .ok loc.dropLast := by
  have hdir := hwell.dropLast hentry
  have harrived := h.advance (hwell.arrived hdir fun target heq => nomatch heq)
  rw [directoryOf, walk_of_advance harrived]
  simp only [h _ _ hdir, if_true]

theorem dropLast_append_lastName (h : loc ≠ []) : loc.dropLast ++ [lastName loc] = loc := by
  rcases List.eq_nil_or_concat loc with rfl | ⟨dir, name, rfl⟩
  · exact absurd rfl h
  · simp [lastName]

/-- Beside a new file, a file that is there is found at its place and with its mode. -/
theorem place_of_file {m : Nat} {bytes : Utf8.Bytes} {dir : Location} {found : Option Nat} (hwell : tree.WellFormed)
    (hfile : tree.entry? loc = some (.file mode content)) (hfresh : tree.entry? beside = none)
    (hmode : (tree.set beside (.file 0o600 bytes)).modeOf? loc = .ok found)
    (hdir : (tree.set beside (.file m bytes)).directoryOf loc = .ok dir) :
    dir ++ [lastName loc] = loc ∧ found.getD 0o600 = mode := by
  have hmodeOf := modeOf?_of_extends hwell hfile (extends_set (e := .file 0o600 bytes) hfresh)
  rw [hmode, Except.ok.injEq] at hmodeOf
  have hdirectory := directoryOf_of_extends hwell hfile (extends_set (e := .file m bytes) hfresh)
  rw [hdir, Except.ok.injEq] at hdirectory
  rw [hdirectory, dropLast_append_lastName (ne_nil_of_file hfile), hmodeOf]
  exact ⟨rfl, rfl⟩

end

/-! ## A new file on the way -/

/-- A directory that is found beside a new file is found without it. -/
theorem directoryOf_of_set {mode : Nat} {content : Utf8.Bytes} {dir : Location} (hfresh : tree.entry? beside = none)
    (h : (tree.set beside (.file mode content)).directoryOf target = .ok dir) :
    tree.directoryOf target = .ok dir := by
  unfold directoryOf at h ⊢
  split at h
  · cases h
  rename_i found hwalk
  split at h
  · rename_i hdir
    cases h
    have hne : dir ≠ beside := by
      rintro rfl
      rw [entry?_set_self (lookup_of_entry?_none hfresh).1] at hdir
      cases hdir
    rw [entry?_set_of_ne hne] at hdir
    rcases walk_set mode content (ne_dir_of_none hfresh) maxLinks [] target.dropLast with
      heq | ⟨-, hnew | hnew⟩
    · rw [← heq, hwalk]
      simp only [hdir, if_true]
    · rw [hwalk, Except.ok.injEq] at hnew
      exact absurd hnew hne
    · rw [hwalk] at hnew
      cases hnew
  · cases h

/-- A new file for the owner only can be taken for the target, but then there was none before, and it has the mode of a
new file anyway. -/
theorem modeOf?_of_set {content : Utf8.Bytes} {found : Option Nat} (hfresh : tree.entry? beside = none)
    (h : (tree.set beside (.file 0o600 content)).modeOf? target = .ok found) :
    ∃ old, tree.modeOf? target = .ok old ∧ found.getD 0o600 = old.getD 0o600 := by
  have hself : entry? (tree.set beside (.file 0o600 content)) beside = some (.file 0o600 content) :=
    entry?_set_self (lookup_of_entry?_none hfresh).1
  unfold modeOf? at h ⊢
  rcases walk_set 0o600 content (ne_dir_of_none hfresh) maxLinks [] target with heq | ⟨hold, hnew | hnew⟩
  · rw [heq] at h
    split at h
    · rename_i loc hwalk
      cases h
      refine ⟨_, rfl, ?_⟩
      by_cases hloc : loc = beside
      · subst hloc
        rw [hself, hfresh]
        rfl
      · rw [entry?_set_of_ne hloc]
    · cases h
    · rename_i e hother hwalk
      cases h
      exact ⟨none, rfl, rfl⟩
  · rw [hnew] at h
    simp only [hself] at h
    cases h
    rw [hold hfresh]
    exact ⟨none, rfl, rfl⟩
  · rw [hnew] at h
    cases h
    rw [hold hfresh]
    exact ⟨none, rfl, rfl⟩

/-! ## Whether a file can be replaced -/

/-- There is room for a new file beside a target: its path and its name are not too long, and a candidate for its name
is free. -/
def Room (tree : FileTree) (target : Location) : Prop :=
  Utf8.byteLength (candidatePath target 0).toText < maxPath ∧
    Utf8.byteLength (besideName (lastName target) 0) ≤ maxName ∧
    ∃ n, tree.entry? (target.dropLast ++ [besideName (lastName target) n]) = none

/-- Why no new file is created beside a target, if none is; the candidate with the number `seed` is tried first. -/
def obstacle (seed : Nat) (tree : FileTree) (target : Location) : Option Failure :=
  if maxPath ≤ Utf8.byteLength (candidatePath target seed).toText then
    some (.unopened .nameTooLong (candidatePath target seed))
  else if maxName < Utf8.byteLength (besideName (lastName target) seed) then
    some (.unopened .nameTooLong (candidatePath target seed))
  else
    match tree.freeNumber? target.dropLast (lastName target) candidates seed with
    | some _ => none
    | none => some .noFreeName

/-- Whichever candidate is tried first, nothing is in the way of a new file when there is room for it. -/
theorem obstacle_eq_none_iff (seed : Nat) : obstacle seed tree target = none ↔ tree.Room target := by
  unfold obstacle Room
  rw [byteLength_candidatePath _ seed 0, byteLength_besideName _ seed 0, ← exists_freeNumber?_iff seed]
  split_ifs with hlong hname
  · simp [Nat.not_lt.mpr hlong]
  · simp [Nat.not_le.mpr hname]
  · cases tree.freeNumber? target.dropLast (lastName target) candidates seed <;>
      simp [Nat.not_le.mp hlong, Nat.not_lt.mp hname]

/-- Two failures that are the same, or that tell of one refusal to open a new file beside a target by two candidates for
its name. -/
inductive AlikeFailures : Failure → Failure → Prop
  | same (f : Failure) : AlikeFailures f f
  | unopened (e : Errno) (target : Location) (n m : Nat) :
      AlikeFailures (.unopened e (candidatePath target n)) (.unopened e (candidatePath target m))

/-- Two results that are the same, or failures that are alike. -/
inductive AlikeResults {α : Type} : Except Failure α → Except Failure α → Prop
  | same (x : Except Failure α) : AlikeResults x x
  | error {f g : Failure} : AlikeFailures f g → AlikeResults (.error f) (.error g)

/-- What is in the way of a new file is told alike, whichever candidate is tried first. -/
theorem obstacle_alike (tree : FileTree) (target : Location) (n m : Nat) :
    obstacle n tree target = none ∧ obstacle m tree target = none ∨
      ∃ f g, obstacle n tree target = some f ∧ obstacle m tree target = some g ∧ AlikeFailures f g := by
  by_cases hroom : tree.Room target
  · exact .inl ⟨(obstacle_eq_none_iff n).mpr hroom, (obstacle_eq_none_iff m).mpr hroom⟩
  refine .inr ?_
  have hnone : ∀ seed, obstacle seed tree target ≠ none := fun seed => mt (obstacle_eq_none_iff seed).mp hroom
  have hn := hnone n
  have hm := hnone m
  unfold obstacle at hn hm ⊢
  rw [byteLength_candidatePath _ m n, byteLength_besideName _ m n] at hm ⊢
  split_ifs at hn hm ⊢ with hlong hname
  · exact ⟨_, _, rfl, rfl, .unopened _ _ n m⟩
  · exact ⟨_, _, rfl, rfl, .unopened _ _ n m⟩
  · refine ⟨.noFreeName, .noFreeName, ?_, ?_, .same _⟩
    · cases hfree : tree.freeNumber? target.dropLast (lastName target) candidates n with
      | none => rfl
      | some found => rw [hfree] at hn; exact absurd rfl hn
    · cases hfree : tree.freeNumber? target.dropLast (lastName target) candidates m with
      | none => rfl
      | some found => rw [hfree] at hm; exact absurd rfl hm

/-- A new file is created unless something is in its way, which is then the failure. -/
theorem createBeside_cases (hdir : tree.directoryOf target = .ok target.dropLast) (seed : Nat) :
    (∃ e, obstacle seed tree target = some e ∧ createBeside seed tree target = .error e) ∨
      obstacle seed tree target = none ∧ ∃ beside, tree.entry? beside = none ∧
        createBeside seed tree target = .ok (tree.set beside (.file 0o600 []), beside) := by
  cases hcreated : createBeside seed tree target with
  | error e =>
    refine .inl ⟨e, ?_, rfl⟩
    unfold createBeside at hcreated
    unfold obstacle
    simp only [hdir] at hcreated
    split at hcreated
    · rename_i hlong
      cases hcreated
      rw [if_pos hlong]
    rename_i hlong
    rw [if_neg hlong]
    split at hcreated
    · rename_i hname
      cases hcreated
      rw [if_pos hname]
    rename_i hname
    rw [if_neg hname]
    cases hfree : tree.freeNumber? target.dropLast (lastName target) candidates seed with
    | some n =>
      rw [hfree] at hcreated
      cases hcreated
    | none =>
      rw [hfree] at hcreated
      cases hcreated
      rfl
  | ok found =>
    obtain ⟨created, beside⟩ := found
    obtain ⟨-, -, -, -, hfresh, rfl⟩ := createBeside_spec hcreated
    refine .inr ⟨?_, beside, hfresh, rfl⟩
    unfold createBeside at hcreated
    unfold obstacle
    simp only [hdir] at hcreated
    split at hcreated
    · cases hcreated
    rename_i hlong
    rw [if_neg hlong]
    split at hcreated
    · cases hcreated
    rename_i hname
    rw [if_neg hname]
    cases hfree : tree.freeNumber? target.dropLast (lastName target) candidates seed with
    | some n => rfl
    | none =>
      rw [hfree] at hcreated
      cases hcreated

/-- What a new file holds when it is moved over a file that is there, or why it is not moved. -/
def written (fault : Option Fault) (text : Text) : Except Failure Utf8.Bytes :=
  if fault = some .opening then .error .diskFull
  else
    match Utf8.encode text with
    | .error e => .error (.loneSurrogates e)
    | .ok bytes => if fault = none then .ok bytes else .error .diskFull

/-- What a file that is there holds after its replacement by a text, or why it is not replaced. -/
def replacement (fault : Option Fault) (seed : Nat) (tree : FileTree) (target : Location) (text : Text) :
    Except Failure Utf8.Bytes :=
  match obstacle seed tree target with
  | some e => .error e
  | none => written fault text

/-- Whichever candidate is tried first, a file is replaced by the same, or fails to be replaced for reasons that are
alike. -/
theorem replacement_alike (fault : Option Fault) (n m : Nat) (tree : FileTree) (target : Location) (text : Text) :
    AlikeResults (replacement fault n tree target text) (replacement fault m tree target text) := by
  unfold replacement
  rcases obstacle_alike tree target n m with ⟨hn, hm⟩ | ⟨f, g, hn, hm, halike⟩
  · rw [hn, hm]
    exact .same _
  · rw [hn, hm]
    exact .error halike

/-- Only the encoded text replaces a file. -/
theorem encode_of_replacement {bytes : Utf8.Bytes} (h : replacement fault seed tree target text = .ok bytes) :
    Utf8.encode text = .ok bytes := by
  unfold replacement written at h
  split at h
  · cases h
  split at h
  · cases h
  split at h
  · cases h
  · rename_i found hfound
    split at h
    · cases h
      exact hfound
    · cases h

/-- Whether a text that can be encoded replaces a file does not depend on the text. -/
theorem replacement_of_encode {bytes : Utf8.Bytes} (h : Utf8.encode text = .ok bytes) :
    replacement fault seed tree target text =
      match replacement fault seed tree target [] with
      | .error e => .error e
      | .ok _ => .ok bytes := by
  have hnil : Utf8.encode [] = .ok [] := rfl
  unfold replacement written
  rw [h, hnil]
  cases obstacle seed tree target with
  | some e => rfl
  | none =>
    cases fault with
    | none => rfl
    | some f => cases f <;> rfl

section
variable {loc : Location} {mode : Nat} {content bytes : Utf8.Bytes}

/-- A new file takes over the mode of a file that is there. -/
theorem takeMode_of_file (hwell : tree.WellFormed) (hfile : tree.entry? loc = some (.file mode content))
    (hfresh : tree.entry? beside = none) (give : FileTree → Nat → Except Failure FileTree) :
    takeMode give loc (tree.set beside (.file 0o600 bytes)) = give (tree.set beside (.file 0o600 bytes)) mode := by
  rw [takeMode, modeOf?_of_extends hwell hfile (extends_set hfresh)]

/-- A new file is moved over a file that is there. -/
theorem exists_move_of_file {m : Nat} (hwell : tree.WellFormed) (hfile : tree.entry? loc = some (.file mode content))
    (hfresh : tree.entry? beside = none) :
    ∃ next, move beside loc (tree.set beside (.file m bytes)) = .ok next := by
  have hextends := extends_set (e := .file m bytes) hfresh
  have hne : loc ≠ [] := ne_nil_of_file hfile
  have hbeside : entry? (tree.set beside (.file m bytes)) beside = some (.file m bytes) :=
    entry?_set_self (lookup_of_entry?_none hfresh).1
  unfold move
  simp only [if_neg hne, directoryOf_of_extends hwell hfile hextends, dropLast_append_lastName hne,
    hextends loc _ hfile, hbeside]
  exact ⟨_, rfl⟩

/-- The steps after a new file was created beside a file fail as the writing of the text does. -/
theorem failure_stepsAfter (hwell : tree.WellFormed) (hfile : tree.entry? loc = some (.file mode content))
    (hfresh : tree.entry? beside = none) (fault : Option Fault) (text : Text) :
    (attempt beside (stepsAfter fault beside loc text) (tree.set beside (.file 0o600 []))).failure =
      match written fault text with
      | .error e => some e
      | .ok _ => none := by
  unfold stepsAfter written
  simp only [List.cons_append, List.nil_append]
  by_cases hopening : fault = some .opening
  · have hfill : fill fault beside text (tree.set beside (.file 0o600 [])) = .error .diskFull := by
      rw [fill, if_pos hopening]
    rw [(attempt_of_error beside _ hfill).2, if_pos hopening]
  rw [if_neg hopening]
  cases hencode : Utf8.encode text with
  | error e =>
    have hfill : fill fault beside text (tree.set beside (.file 0o600 [])) = .error (.loneSurrogates e) := by
      rw [fill, if_neg hopening, hencode]
    rw [(attempt_of_error beside _ hfill).2]
  | ok bytes =>
    have hfill : fill fault beside text (tree.set beside (.file 0o600 [])) =
        .ok (tree.set beside (.file 0o600 bytes)) := by
      rw [fill, if_neg hopening, hencode, ← set_set tree beside (.file 0o600 []) (.file 0o600 bytes)]
    have hmode : ∀ give : FileTree → Nat → Except Failure FileTree,
        takeMode give loc (tree.set beside (.file 0o600 bytes)) = give (tree.set beside (.file 0o600 bytes)) mode :=
      takeMode_of_file hwell hfile hfresh
    have hset : (tree.set beside (.file 0o600 bytes)).setMode beside mode = tree.set beside (.file mode bytes) :=
      setMode_set (lookup_of_entry?_none hfresh).1 0o600 mode bytes
    rw [(attempt_of_ok beside _ hfill).2]
    cases fault with
    | none =>
      obtain ⟨next, hmove⟩ : ∃ next, move beside loc (tree.set beside (.file mode bytes)) = .ok next :=
        exists_move_of_file hwell hfile hfresh
      rw [(attempt_of_ok beside _ ((hmode _).trans (congrArg Except.ok hset))).2, (attempt_of_ok beside _ hmove).2]
      rfl
    | some f =>
      cases f with
      | opening => exact absurd rfl hopening
      | takeMode => rw [(attempt_of_error beside _ (hmode _)).2]; rfl
      | move => rw [(attempt_of_ok beside _ ((hmode _).trans (congrArg Except.ok hset))).2]; rfl
      | moveGone => rw [(attempt_of_ok beside _ ((hmode _).trans (congrArg Except.ok hset))).2]; rfl

/-- In a tree of files, the replacement of a file fails as the creation of the new file or the writing does. -/
theorem failure_replaceAt (hwell : tree.WellFormed) (hfile : tree.entry? loc = some (.file mode content))
    (fault : Option Fault) (seed : Nat) (text : Text) :
    (replaceAt fault seed tree loc text).failure =
      match replacement fault seed tree loc text with
      | .error e => some e
      | .ok _ => none := by
  unfold replaceAt replacement
  rcases createBeside_cases (directoryOf_of_extends hwell hfile (.refl tree)) seed with
    ⟨e, hobstacle, hcreated⟩ | ⟨hobstacle, beside, hfresh, hcreated⟩
  · rw [hcreated, hobstacle]
  · rw [hcreated, hobstacle]
    exact failure_stepsAfter hwell hfile hfresh fault text

/-- In a tree of files, a file is replaced by the encoded text and keeps its mode, or the replacement fails and the tree
is as it was. -/
theorem tree_replaceAt (hwell : tree.WellFormed) (hfile : tree.entry? loc = some (.file mode content))
    (fault : Option Fault) (seed : Nat) (text : Text) :
    (replaceAt fault seed tree loc text).tree =
      match replacement fault seed tree loc text with
      | .error _ => tree
      | .ok bytes => tree.set loc (.file mode bytes) := by
  have hfailure := failure_replaceAt hwell hfile fault seed text
  cases ended_replaceAt fault seed tree loc text with
  | failed e he hsame =>
    rw [he] at hfailure
    split at hfailure
    · exact hsame
    · cases hfailure
  | done beside dir found bytes hfresh hne hbytes hmode hdir he hdone =>
    rw [he] at hfailure
    split at hfailure
    · cases hfailure
    · rename_i bytes' hbytes'
      obtain rfl : bytes' = bytes := Except.ok.inj ((encode_of_replacement hbytes').symm.trans hbytes)
      obtain ⟨hplace, hold⟩ := place_of_file hwell hfile hfresh hmode hdir
      rw [hdone, hplace, hold]

/-- In a tree of files, replacing a file succeeds exactly when no call is made to fail, there is room for the new file
and the text can be encoded. -/
theorem failure_replaceAt_iff (hwell : tree.WellFormed) (hfile : tree.entry? loc = some (.file mode content))
    (seed : Nat) :
    (replaceAt fault seed tree loc text).failure = none ↔
      fault = none ∧ tree.Room loc ∧ ∃ bytes, Utf8.encode text = .ok bytes := by
  rw [failure_replaceAt hwell hfile, ← obstacle_eq_none_iff seed, replacement, written]
  cases obstacle seed tree loc with
  | some e => simp
  | none =>
    by_cases hopening : fault = some .opening
    · simp [hopening]
    · cases Utf8.encode text with
      | error e => simp [hopening]
      | ok bytes => by_cases hnone : fault = none <;> simp [hopening, hnone]

theorem freeNumber?_congr {other : FileTree} (h : tree.entries.map (·.1) = other.entries.map (·.1)) (dir : Location)
    (name : Text) (tries n : Nat) : tree.freeNumber? dir name tries n = other.freeNumber? dir name tries n := by
  induction tries generalizing n with
  | zero => rfl
  | succ tries ih => rw [freeNumber?, freeNumber?, entry?_isNone_congr h, ih]

/-- What is in the way of a new file shows in the locations of the entries. -/
theorem obstacle_congr {other : FileTree} (h : tree.entries.map (·.1) = other.entries.map (·.1)) :
    obstacle seed tree target = obstacle seed other target := by
  rw [obstacle, obstacle, freeNumber?_congr h]

theorem room_congr {other : FileTree} (h : tree.entries.map (·.1) = other.entries.map (·.1)) :
    tree.Room target ↔ other.Room target := by
  rw [← obstacle_eq_none_iff 0, ← obstacle_eq_none_iff 0, obstacle_congr h]

/-- What replaces a file, or why nothing does, shows in the locations of the entries. -/
theorem replacement_congr {other : FileTree} (h : tree.entries.map (·.1) = other.entries.map (·.1)) :
    replacement fault seed tree target = replacement fault seed other target := by
  funext text
  rw [replacement, replacement, obstacle_congr h]

end

end Redeclare.FileTree

namespace Redeclare.Artifact

/-! ## Writing -/

/-- In a tree of files, a location and a mode are those of the file that a path leads to, if it leads to one. -/
def Overwrites (tree : FileTree) (path : Path) (loc : Location) (mode : Nat) : Prop :=
  tree.WellFormed → path.hasNul = false → ∀ found old content, tree.find path = .ok found →
    tree.entry? found = some (.file old content) → loc = found ∧ mode = old

/-- Writing a document fails and leaves the tree as it was, or puts the encoded document into one file: in a tree of
files into the one that the path leads to, which keeps its mode. -/
theorem store_cases (host : Host) (tree : FileTree) (path : Path) (document : Json) :
    (∃ e, store host tree path document = (tree, .error e)) ∨
      ∃ loc mode bytes written, Utf8.encode document.render = .ok bytes ∧
        store host tree path document =
          (tree.set loc (.file mode bytes), .ok (.wrote written document.render.length)) ∧
        Overwrites tree path loc mode := by
  unfold store
  split
  · rename_i e _
    exact .inl ⟨e, rfl⟩
  · rename_i target htarget
    split
    · exact .inl ⟨.longWhole, rfl⟩
    cases FileTree.ended_replaceAt host.fault (host.seeds 0) tree target document.render with
    | failed e he hsame =>
      refine .inl ⟨e, ?_⟩
      simp only [he, hsame]
    | done beside dir found bytes hfresh hne hbytes hmode hdir he hdone =>
      refine .inr ⟨dir ++ [FileTree.lastName target], found.getD 0o600, bytes, ⟨.root, target⟩, hbytes, ?_, ?_⟩
      · simp only [he, hdone]
      · intro hwell hnul loc old content hfind hfile
        rw [FileTree.destination_of_find hwell hnul hfind, Except.ok.injEq] at htarget
        subst htarget
        exact FileTree.place_of_file hwell hfile hfresh hmode hdir

/-- A document that can be written is stored when the file that the path stands for is replaced by its text. -/
theorem store_eq_ok_iff {host : Host} {tree after : FileTree} {path : Path} {document : Json}
    {wrote : Event} :
    store host tree path document = (after, .ok wrote) ↔
      document.hasLongWhole = false ∧ ∃ loc, tree.destination path = .ok loc ∧
        (FileTree.replaceAt host.fault (host.seeds 0) tree loc document.render).failure = none ∧
        after = (FileTree.replaceAt host.fault (host.seeds 0) tree loc document.render).tree ∧
        wrote = .wrote ⟨.root, loc⟩ document.render.length := by
  unfold store
  cases tree.destination path with
  | error e => simp
  | ok loc =>
    simp only [Except.ok.injEq, exists_eq_left']
    cases document.hasLongWhole with
    | true => simp
    | false =>
      cases (FileTree.replaceAt host.fault (host.seeds 0) tree loc document.render).failure with
      | some e => simp
      | none => simp [eq_comm]

end Redeclare.Artifact

import Redeclare.Proofs.Replacing

/-!
# All or nothing

However a replacement goes, with calls that fail at any step and for any reason, before, half way or after it was begun:
it fails and leaves the tree as it was, without the new file, or it comes to its end and the place of the target holds
the whole text. What another process sees on the way is the tree as it was, that tree with one more file beside the
target, or the tree after the whole replacement. The argument goes through the steps one by one: as long as the new file
has not been moved, the tree without it is the one before.
-/

namespace Redeclare

namespace FileTree

variable {tree : FileTree} {beside target : Location} {text : Text}

/-! ## How a replacement can go -/

/-- What may become of the file at `beside` while a step is under way, or when it fails half way: it is gone, or a file
with anything in it. -/
inductive Disturbed (beside : Location) (tree : FileTree) : FileTree → Prop
  | gone : Disturbed beside tree (tree.remove beside)
  | file (mode : Nat) (content : Utf8.Bytes) : Disturbed beside tree (tree.set beside (.file mode content))

/-- How steps can go when each of them may fail, for whatever reason and also half way. The trees passed through are
those between the steps and those that are seen while a step is under way. When a step fails, the file at `beside` is
removed and no further step is taken. -/
inductive Possible (beside : Location) : List Step → FileTree → Attempt → Prop
  | finished (tree : FileTree) : Possible beside [] tree ⟨[], tree, none⟩
  | underWay {step : Step} {rest : List Step} {tree seen : FileTree} {later : Attempt} : Disturbed beside tree seen →
    Possible beside (step :: rest) tree later →
      Possible beside (step :: rest) tree { later with passed := seen :: later.passed }
  | taken {step : Step} {rest : List Step} {tree next : FileTree} {later : Attempt} : step tree = .ok next →
    Possible beside rest next later →
      Possible beside (step :: rest) tree { later with passed := next :: later.passed }
  | failed {step : Step} {rest : List Step} {tree left : FileTree} (e : Failure) :
    left = tree ∨ Disturbed beside tree left →
      Possible beside (step :: rest) tree ⟨[left.remove beside], left.remove beside, some e⟩

/-- How the replacement of the file at a location can go: no new file is created, or one is, with an unused name beside
the target, and the steps after that go in one of the ways in which they can go. -/
inductive Replacing (tree : FileTree) (target : Location) (text : Text) : Attempt → Prop
  | notCreated (e : Failure) : Replacing tree target text ⟨[], tree, some e⟩
  | created {dir beside : Location} {n : Nat} {later : Attempt} : tree.directoryOf target = .ok dir →
    beside = dir ++ [besideName (lastName target) n] → tree.entry? beside = none →
      Possible beside (stepsAfter none beside target text) (tree.set beside (.file 0o600 [])) later →
        Replacing tree target text { later with passed := tree.set beside (.file 0o600 []) :: later.passed }

/-- Steps that are taken one after another go in a way in which they can go. -/
theorem possible_attempt (beside : Location) (steps : List Step) (tree : FileTree) :
    Possible beside steps tree (attempt beside steps tree) := by
  induction steps generalizing tree with
  | nil => exact .finished tree
  | cons step rest ih =>
    rw [attempt]
    split
    · rename_i next hnext
      exact .taken hnext (ih next)
    · rename_i e he
      exact .failed e (.inl rfl)

/-- A step that does what it is to do, or fails instead, can go so, if what is left of the steps can. -/
theorem possible_cons {step step' : Step} {rest rest' : List Step}
    (hstep : step' tree = step tree ∨ ∃ e, step' tree = .error e)
    (hrest : ∀ next, step tree = .ok next → Possible beside rest next (attempt beside rest' next)) :
    Possible beside (step :: rest) tree (attempt beside (step' :: rest') tree) := by
  rw [attempt]
  split
  · rename_i next hnext
    rcases hstep with heq | ⟨e, he⟩
    · have htaken := heq.symm.trans hnext
      exact .taken htaken (hrest next htaken)
    · rw [he] at hnext
      cases hnext
  · rename_i e he
    exact .failed e (.inl rfl)

/-- Also when a call is made to fail, the steps go in a way in which they can go. -/
theorem possible_stepsAfter (fault : Option Fault) (beside target : Location) (text : Text) (tree : FileTree) :
    Possible beside (stepsAfter none beside target text) tree
      (attempt beside (stepsAfter fault beside target text) tree) := by
  unfold stepsAfter
  simp only [List.cons_append, List.nil_append]
  refine possible_cons ?_ fun filled _ => possible_cons ?_ fun moded _ => ?_
  · by_cases hfault : fault = some .opening
    · exact .inr ⟨.diskFull, by rw [fill, if_pos hfault]⟩
    · exact .inl (by rw [fill, fill, if_neg hfault, if_neg (by simp)])
  · unfold takeMode
    cases filled.modeOf? target with
    | error e => exact .inl rfl
    | ok found =>
      cases found with
      | none => exact .inl rfl
      | some mode =>
        by_cases hfault : fault = some .takeMode
        · exact .inr ⟨.diskFull, by simp only [if_pos hfault]⟩
        · exact .inl (by simp only [if_neg hfault, reduceCtorEq, if_false])
  · split
    · exact possible_cons (.inr ⟨_, rfl⟩) fun next _ => .finished next
    · -- the file is gone before the move fails
      exact .underWay .gone (.failed _ (.inr .gone))
    · exact possible_attempt beside _ moded

/-- Whatever call is made to fail, a replacement goes in a way in which it can go. -/
theorem replacing_replaceAt (fault : Option Fault) (seed : Nat) (tree : FileTree) (target : Location) (text : Text) :
    Replacing tree target text (replaceAt fault seed tree target text) := by
  unfold replaceAt
  split
  · rename_i e he
    exact .notCreated e
  · rename_i created beside hcreated
    obtain ⟨dir, n, hdir, rfl, hfresh, rfl⟩ := createBeside_spec hcreated
    exact .created hdir rfl hfresh (possible_stepsAfter fault _ target text _)

/-! ## All or nothing -/

section
variable {place : Location} {m : Nat} {c : Utf8.Bytes} {a : Attempt}

/-- The place at which a target stands: behind the directory that it is in, as the system finds it. -/
def Stands (tree : FileTree) (target place : Location) : Prop :=
  ∃ dir, tree.directoryOf target = .ok dir ∧ place = dir ++ [lastName target]

/-- After a whole replacement the place of the target holds the encoded text, with the mode that was found at the target
or else the mode of a new file. The root and other directories are not replaced. -/
def Replaced (tree : FileTree) (target place : Location) (text : Text) (after : FileTree) : Prop :=
  target ≠ [] ∧ tree.entry? place ≠ some .dir ∧ ∃ bytes old, Utf8.encode text = .ok bytes ∧
    tree.modeOf? target = .ok old ∧ after = tree.set place (.file (old.getD 0o600) bytes)

/-- What is seen of a replacement at any time: the tree as it was, the tree with one more file that is not at the place
of the target, or the tree after the whole replacement. -/
inductive Seen (tree : FileTree) (target place : Location) (text : Text) : FileTree → Prop
  | before : Seen tree target place text tree
  | beside {loc : Location} (mode : Nat) (content : Utf8.Bytes) : tree.entry? loc = none → loc ≠ place →
    Seen tree target place text (tree.set loc (.file mode content))
  | after {t : FileTree} : Replaced tree target place text t → Seen tree target place text t

/-- A replacement that is all or nothing: it fails and the tree is as it was, or it comes to its end and the tree is
the one after the whole replacement; and nothing else is seen on the way. -/
structure Whole (tree : FileTree) (target place : Location) (text : Text) (a : Attempt) : Prop where
  ended : (∃ e, a.failure = some e ∧ a.tree = tree) ∨
    a.failure = none ∧ Replaced tree target place text a.tree
  passed : ∀ t ∈ a.passed, Seen tree target place text t

theorem Whole.cons {t : FileTree} (h : Whole tree target place text a) (ht : Seen tree target place text t) :
    Whole tree target place text { a with passed := t :: a.passed } := by
  refine ⟨h.ended, ?_⟩
  intro other hother
  rcases List.mem_cons.mp hother with rfl | hother
  · exact ht
  · exact h.passed other hother

/-- Whatever has become of the new file, the tree without it is the one before. -/
theorem Disturbed.cases_set {t : FileTree} (hfresh : tree.entry? beside = none)
    (h : Disturbed beside (tree.set beside (.file m c)) t) :
    t = tree ∨ ∃ mode content, t = tree.set beside (.file mode content) := by
  cases h with
  | gone => exact .inl (remove_set hfresh)
  | file mode content => exact .inr ⟨mode, content, set_set tree beside _ _⟩

/-- Steps that begin with a new file beside the target are all or nothing, if what comes after the first of them is. By
induction on how they go: as long as the first step is under way only the new file changes. -/
theorem Possible.whole {step : Step} {rest : List Step} (hfresh : tree.entry? beside = none) (hplace : beside ≠ place)
    (hnext : ∀ next, step (tree.set beside (.file m c)) = .ok next → Seen tree target place text next ∧
      ∀ later, Possible beside rest next later → Whole tree target place text later)
    (h : Possible beside (step :: rest) (tree.set beside (.file m c)) a) : Whole tree target place text a := by
  generalize hsteps : step :: rest = steps at h
  generalize hnow : tree.set beside (.file m c) = now at h
  induction h with
  | finished now => cases hsteps
  | underWay hseen _ ih =>
    subst hnow
    refine (ih hsteps rfl).cons ?_
    rcases hseen.cases_set hfresh with rfl | ⟨mode, content, rfl⟩
    · exact .before
    · exact .beside mode content hfresh hplace
  | taken hstep hlater _ =>
    subst hnow
    cases hsteps
    obtain ⟨hseen, hrest⟩ := hnext _ hstep
    exact (hrest _ hlater).cons hseen
  | @failed _ _ _ left e hleft =>
    subst hnow
    have hremoved : left.remove beside = tree := by
      rcases hleft with rfl | hleft
      · exact remove_set hfresh
      · rcases hleft.cases_set hfresh with rfl | ⟨mode, content, rfl⟩
        · exact remove_of_entry?_none hfresh
        · exact remove_set hfresh
    rw [hremoved]
    refine ⟨.inl ⟨e, rfl, rfl⟩, ?_⟩
    intro t ht
    rw [List.mem_singleton.mp ht]
    exact .before

/-- A candidate for the name of a new file is another name than that of the target. -/
theorem besideName_ne (name : Text) (n : Nat) : besideName name n ≠ name := by
  intro h
  have hlength := congrArg List.length h
  simp [besideName] at hlength
  omega

/-- The steps after a new file was created beside the target are all or nothing. -/
theorem whole_stepsAfter {dir : Location} (hdir : tree.directoryOf target = .ok dir)
    (hfresh : tree.entry? beside = none) (hplace : beside ≠ dir ++ [lastName target])
    (h : Possible beside (stepsAfter none beside target text) (tree.set beside (.file 0o600 [])) a) :
    Whole tree target (dir ++ [lastName target]) text a := by
  have hbeside := (lookup_of_entry?_none hfresh).1
  refine h.whole hfresh hplace ?_
  -- the new file is filled
  intro filled hfill
  obtain ⟨bytes, hbytes, rfl⟩ := fill_spec hfill
  rw [set_set]
  refine ⟨.beside 0o600 bytes hfresh hplace, ?_⟩
  intro _ h
  refine h.whole hfresh hplace ?_
  -- it takes over the mode
  intro moded hmode
  have hgives : ∀ mode next, (if (none : Option Fault) = some .takeMode then Except.error Failure.diskFull
      else .ok ((tree.set beside (.file 0o600 bytes)).setMode beside mode)) = .ok next →
      next = tree.set beside (.file mode bytes) := by
    intro mode next hnext
    rw [setMode_set hbeside] at hnext
    exact (Except.ok.inj hnext).symm
  obtain ⟨found, hfound, rfl⟩ := takeMode_spec hgives hmode
  obtain ⟨old, hold, hsame⟩ := modeOf?_of_set hfresh hfound
  refine ⟨.beside _ bytes hfresh hplace, ?_⟩
  intro _ h
  refine h.whole hfresh hplace ?_
  -- it is moved over the target
  intro moved hmove
  obtain ⟨dir', hne, hdir', hnodir, rfl⟩ := move_spec hfresh hmove
  obtain rfl : dir' = dir := Except.ok.inj ((directoryOf_of_set hfresh hdir').symm.trans hdir)
  have hreplaced : Replaced tree target (dir' ++ [lastName target]) text
      (tree.set (dir' ++ [lastName target]) (.file (found.getD 0o600) bytes)) :=
    ⟨hne, entry?_set_of_ne hplace.symm ▸ hnodir, bytes, old, hbytes, hold, by rw [hsame]⟩
  refine ⟨.after hreplaced, ?_⟩
  intro _ h
  cases h
  exact ⟨.inr ⟨rfl, hreplaced⟩, fun t ht => absurd ht List.not_mem_nil⟩

/-- A replacement is all or nothing, at the place at which the target stands. -/
theorem Replacing.whole (h : Replacing tree target text a) (hstands : tree.Stands target place) :
    Whole tree target place text a := by
  obtain ⟨dir, hdir, rfl⟩ := hstands
  cases h with
  | notCreated e => exact ⟨.inl ⟨e, rfl, rfl⟩, fun t ht => absurd ht List.not_mem_nil⟩
  | @created dir' _ n _ hdir' hbeside hfresh hlater =>
    obtain rfl : dir' = dir := Except.ok.inj (hdir'.symm.trans hdir)
    have hplace : dir' ++ [besideName (lastName target) n] ≠ dir' ++ [lastName target] := by
      intro h
      exact besideName_ne (lastName target) n (List.singleton_inj.mp (List.append_cancel_left h))
    subst hbeside
    exact (whole_stepsAfter hdir hfresh hplace hlater).cons (.beside 0o600 [] hfresh hplace)

/-- At any time the place of the target is as it was or as it is after the whole replacement. -/
theorem Seen.entry_place {t : FileTree} (h : Seen tree target place text t) :
    t.entry? place = tree.entry? place ∨
      ∃ whole, Replaced tree target place text whole ∧ t.entry? place = whole.entry? place := by
  cases h with
  | before => exact .inl rfl
  | beside mode content hfresh hne => exact .inl (entry?_set_of_ne hne.symm)
  | after hreplaced => exact .inr ⟨t, hreplaced, rfl⟩

/-- However a replacement goes, it fails and the tree is as it was, or it comes to its end and the place of the target
is replaced; and at any time the place is as it was or as it is then. -/
theorem Replacing.ended_and_passed (h : Replacing tree target text a) :
    ((∃ e, a.failure = some e) ∧ a.tree = tree ∨
        a.failure = none ∧ ∃ place, tree.Stands target place ∧ Replaced tree target place text a.tree) ∧
      ∀ seen ∈ a.passed, ∃ place, tree.Stands target place ∧ (seen.entry? place = tree.entry? place ∨
        ∃ whole, Replaced tree target place text whole ∧ seen.entry? place = whole.entry? place) := by
  by_cases hstands : ∃ place, tree.Stands target place
  · obtain ⟨place, hplace⟩ := hstands
    have hwhole := h.whole hplace
    refine ⟨?_, fun seen hseen => ⟨place, hplace, (hwhole.passed seen hseen).entry_place⟩⟩
    rcases hwhole.ended with ⟨e, he, hsame⟩ | ⟨hnone, hreplaced⟩
    · exact .inl ⟨⟨e, he⟩, hsame⟩
    · exact .inr ⟨hnone, place, hplace, hreplaced⟩
  · -- without a place for it no new file was created
    cases h with
    | notCreated e => exact ⟨.inl ⟨⟨e, rfl⟩, rfl⟩, fun seen hseen => absurd hseen List.not_mem_nil⟩
    | created hdir _ _ _ => exact absurd ⟨_, _, hdir, rfl⟩ hstands

/-! ## Targets without links -/

theorem eq_canonical_of_destination {p : Path} (h : tree.destination p = .ok target) : target = tree.canonical p := by
  unfold destination at h
  split at h
  · cases h
  · simp only at h
    split at h
    · cases h
    · exact (Except.ok.inj h).symm

/-- A location that leads through no link is its own place. -/
theorem Stands.eq_of_direct (h : tree.Stands target place) (hdirect : tree.Direct target) (hne : target ≠ []) :
    place = target := by
  obtain ⟨dir, hdir, rfl⟩ := h
  unfold directoryOf at hdir
  split at hdir
  · cases hdir
  rename_i found hwalk
  split at hdir
  · cases hdir
    rw [hdirect.dropLast.eq_of_walk hwalk, dropLast_append_lastName hne]
  · cases hdir

/-- After the whole replacement of a location that leads through no link, the file that was there has its old mode and
the new content; if there was none, there is one for the owner only. -/
theorem Replaced.of_direct {after : FileTree} (h : Replaced tree target target text after) (hwell : tree.WellFormed)
    (hdirect : tree.Direct target) :
    ∃ bytes, Utf8.encode text = .ok bytes ∧
      ((∃ mode content, tree.entry? target = some (.file mode content) ∧
          after = tree.set target (.file mode bytes)) ∨
        tree.entry? target = none ∧ after = tree.set target (.file 0o600 bytes)) := by
  obtain ⟨hne, hnodir, bytes, old, hbytes, hold, rfl⟩ := h
  refine ⟨bytes, hbytes, ?_⟩
  cases hentry : tree.entry? target with
  | none =>
    right
    unfold modeOf? at hold
    split at hold
    · rename_i loc hwalk
      rw [hdirect.eq_of_walk hwalk, hentry] at hold
      cases hold
      exact ⟨rfl, rfl⟩
    · cases hold
    · cases hold
      exact ⟨rfl, rfl⟩
  | some e =>
    left
    cases e with
    | dir => exact absurd hentry hnodir
    | link t =>
      have hlast := hdirect target.dropLast (lastName target) [] (dropLast_append_lastName hne).symm
      rw [dropLast_append_lastName hne] at hlast
      exact absurd hentry (hlast.2.2 t)
    | file mode content =>
      rw [modeOf?_of_extends hwell hentry (.refl tree)] at hold
      cases hold
      exact ⟨mode, content, rfl, rfl⟩

end

end FileTree

/-! ## Documents -/

namespace Artifact

/-- How the writing of a document can go when any call in it may fail: the path is not resolved or the document has no
text, or the file that the path stands for is replaced in one of the ways in which that can go. The first argument is
the trees that are passed through. -/
inductive Storing (tree : FileTree) (path : Path) (document : Json) :
    List FileTree → FileTree × Except Failure Event → Prop
  | notBegun (e : Failure) : Storing tree path document [] (tree, .error e)
  | replaced {loc : Location} {a : FileTree.Attempt} : tree.destination path = .ok loc →
    FileTree.Replacing tree loc document.render a →
      Storing tree path document a.passed
        (a.tree, match a.failure with
          | some e => .error e
          | none => .ok (.wrote ⟨.root, loc⟩ document.render.length))

/-- The trees that are passed through when a document is written. -/
def passed (host : Host) (tree : FileTree) (path : Path) (document : Json) : List FileTree :=
  match tree.destination path with
  | .error _ => []
  | .ok loc =>
    if document.hasLongWhole then []
    else (FileTree.replaceAt host.fault (host.seeds 0) tree loc document.render).passed

/-- Whatever call is made to fail, a document is written in a way in which that can go. -/
theorem storing_store (host : Host) (tree : FileTree) (path : Path) (document : Json) :
    Storing tree path document (passed host tree path document) (store host tree path document) := by
  cases hloc : tree.destination path with
  | error e =>
    simp only [passed, store, hloc]
    exact .notBegun e
  | ok loc =>
    have hreplaced := Storing.replaced hloc
      (FileTree.replacing_replaceAt host.fault (host.seeds 0) tree loc document.render)
    simp only [passed, store, hloc]
    by_cases hlong : document.hasLongWhole = true
    · simp only [if_pos hlong]
      exact .notBegun .longWhole
    · simp only [if_neg hlong]
      split <;> simpa only [‹_›] using hreplaced

/-- The writing of a document is all or nothing, however it goes. It fails and the tree is as it was; or it succeeds and
the tree is as it was but for the place for which the path stands, where the whole encoded text is, with the mode of the
file that was there or else that of a new file. At any time in between the place is as it was or as it is after the
whole replacement. In a tree of files the place is the canonical location of the path, if its links can be followed. -/
theorem store_whole (tree : FileTree) (path : Path) (document : Json) :
    (∀ host, Storing tree path document (passed host tree path document) (store host tree path document)) ∧
    (∀ passed after result, Storing tree path document passed (after, result) →
      ((∃ e, result = .error e) ∧ after = tree ∨
        ∃ loc place, tree.destination path = .ok loc ∧ tree.Stands loc place ∧
          tree.Replaced loc place document.render after ∧
          result = .ok (.wrote ⟨.root, loc⟩ document.render.length)) ∧
      ∀ seen ∈ passed, ∃ loc place, tree.destination path = .ok loc ∧ tree.Stands loc place ∧
        (seen.entry? place = tree.entry? place ∨
          ∃ whole, tree.Replaced loc place document.render whole ∧ seen.entry? place = whole.entry? place)) ∧
    (tree.WellFormed → tree.Settles path → ∀ loc place, tree.destination path = .ok loc → tree.Stands loc place →
      loc ≠ [] → place = loc ∧ ∀ after, tree.Replaced loc place document.render after →
        ∃ bytes, Utf8.encode document.render = .ok bytes ∧
          ((∃ mode content, tree.entry? loc = some (.file mode content) ∧ after = tree.set loc (.file mode bytes)) ∨
            tree.entry? loc = none ∧ after = tree.set loc (.file 0o600 bytes))) := by
  refine ⟨fun host => storing_store host tree path document, ?_, ?_⟩
  · intro passed after result h
    cases h with
    | notBegun e => exact ⟨.inl ⟨⟨e, rfl⟩, rfl⟩, fun seen hseen => absurd hseen List.not_mem_nil⟩
    | @replaced loc a hloc hreplacing =>
      obtain ⟨hended, hpassed⟩ := hreplacing.ended_and_passed
      constructor
      · rcases hended with ⟨⟨e, he⟩, hsame⟩ | ⟨hnone, place, hstands, hreplaced⟩
        · rw [he]
          exact .inl ⟨⟨e, rfl⟩, hsame⟩
        · rw [hnone]
          exact .inr ⟨loc, place, hloc, hstands, hreplaced, rfl⟩
      · intro seen hseen
        obtain ⟨place, hstands, hentry⟩ := hpassed seen hseen
        exact ⟨loc, place, hloc, hstands, hentry⟩
  · intro hwell hsettles loc place hloc hstands hne
    have hdirect : tree.Direct loc := by
      rw [FileTree.eq_canonical_of_destination hloc]
      exact hsettles.direct hwell
    obtain rfl := hstands.eq_of_direct hdirect hne
    exact ⟨rfl, fun after hreplaced => hreplaced.of_direct hwell hdirect⟩

/-- A tree with one file, which holds an empty object. -/
def emptyObject : FileTree := .oneFile "A.json" "\x7b\x7d"

/-- The path of the artifact `A.json`. -/
def pathOfA : Path := ⟨.relative, [Text.ofString "A.json"]⟩

/-- A host on which no file can be moved. -/
def unmoving : Host := { Host.plain with fault := some .move }

theorem store_whole_emptyObject :
    (store unmoving emptyObject pathOfA .null).1 = emptyObject ∧
      ∃ bytes, (store .plain emptyObject pathOfA .null).1 =
        emptyObject.set [Text.ofString "A.json"] (.file 0o644 bytes) := by
  obtain ⟨hstoring, hwhole, hplace⟩ := store_whole emptyObject pathOfA .null
  constructor
  · have hended := (hwhole _ (store unmoving emptyObject pathOfA .null).1 _ (hstoring unmoving)).1
    rcases hended with ⟨-, hsame⟩ | ⟨_, _, _, _, _, hresult⟩
    · exact hsame
    · cases hresult
  · have hended := (hwhole _ (store .plain emptyObject pathOfA .null).1 _ (hstoring .plain)).1
    rcases hended with ⟨⟨e, he⟩, -⟩ | ⟨loc, place, hloc, hstands, hreplaced, -⟩
    · cases he
    · have hdestination : emptyObject.destination pathOfA = .ok [Text.ofString "A.json"] := rfl
      obtain rfl : loc = [Text.ofString "A.json"] := Except.ok.inj (hloc.symm.trans hdestination)
      obtain ⟨rfl, hexplicit⟩ :=
        hplace (by decide +kernel) ⟨[Text.ofString "A.json"], by decide +kernel⟩ _ place hloc hstands nofun
      obtain ⟨bytes, -, ⟨mode, content, hentry, hafter⟩ | ⟨hnone, -⟩⟩ := hexplicit _ hreplaced
      · obtain rfl : mode = 0o644 := by
          cases hentry
          rfl
        exact ⟨bytes, hafter⟩
      · cases hnone

end Artifact

end Redeclare

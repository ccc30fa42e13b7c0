import Redeclare.Proofs.Atomicity
import Redeclare.Proofs.Requests

/-!
# Reading what was stored under the same path

A document is stored at the canonical location of a path, and it is read where the system finds what the path leads to.
The canonical location is found also through names that are not there, through more links than the system follows and
for a path that is too long, so what was stored is not always found again: the system may refuse the path. It never
finds another document. It finds the stored one if it found something before, or if nothing but the last name was
missing, also behind links; and if all links of the path can be followed to their end, it finds it only then.

The argument compares the tree before with the tree after, which has one more file at most: a way is the same in both,
or comes to the place of the file. The canonical location depends on the links alone, so it is the same in both.
-/

namespace Redeclare

namespace FileTree

variable {tree : FileTree} {start place : Location} {names : List Text} {links : Nat}

/-! ## Paths whose last name is free -/

/-- Nothing but the last name is missing on a way through at most a number of links: the other names lead to a directory
that can hold an entry with the last name and has none. -/
inductive AwaitsFrom (tree : FileTree) : Nat → Location → List Text → Location → Prop
  | free {links : Nat} {start dir : Location} {front : List Text} {name : Text} :
    tree.advance start front = .arrived dir → tree.entry? dir = some .dir → HeldName name →
      tree.entry? (dir ++ [name]) = none → AwaitsFrom tree links start (front ++ [name]) (dir ++ [name])
  | through {links : Nat} {start next place : Location} {names rest : List Text} :
    tree.advance start names = .link next rest → AwaitsFrom tree links next rest place →
      AwaitsFrom tree (links + 1) start names place

/-- Nothing but its last name is missing on the way of a path that the system takes; a file with this name would be at
the place. -/
def Awaits (tree : FileTree) (p : Path) (place : Location) : Prop :=
  Utf8.byteLength p.toText < maxPath ∧ tree.AwaitsFrom maxLinks (tree.startOf p) p.names place

theorem AwaitsFrom.fresh (h : tree.AwaitsFrom links start names place) : tree.entry? place = none := by
  induction h with
  | free _ _ _ hfresh => exact hfresh
  | through _ _ ih => exact ih

/-- A name in front that leads to where a way starts. -/
theorem AwaitsFrom.cons {next : Location} {name : Text} (h : tree.AwaitsFrom links next names place)
    (hgoes : tree.Goes start name next) : tree.AwaitsFrom links start (name :: names) place := by
  cases h with
  | free hfront hdir hheld hfresh =>
    rw [← hgoes.advance] at hfront
    exact .free hfront hdir hheld hfresh
  | through hlink hrest =>
    rw [← hgoes.advance] at hlink
    exact .through hlink hrest

/-- When there is a file at the place that a way awaits, the way leads to it. -/
theorem AwaitsFrom.walk_set (h : tree.AwaitsFrom links start names place) (mode : Nat) (content : Utf8.Bytes) :
    (tree.set place (.file mode content)).walk links start names = .ok place := by
  have hself : entry? (tree.set place (.file mode content)) place = some (.file mode content) :=
    entry?_set_self (lookup_of_entry?_none h.fresh).1
  induction h with
  | @free links start dir front name hfront hdir hheld hfresh =>
    have hextends : tree.Extends (tree.set (dir ++ [name]) (.file mode content)) := extends_set hfresh
    have hgoes : Goes (tree.set (dir ++ [name]) (.file mode content)) dir name (dir ++ [name]) :=
      .down (hextends _ _ hdir) hheld hself nofun
    apply walk_of_advance
    rw [advance_append (hextends.advance hfront), hgoes.advance]
    rfl
  | @through links start next place names rest hlink hrest ih =>
    have hsame : (tree.set place (.file mode content)).advance start names = .link next rest := by
      rcases advance_set mode content (ne_dir_of_none hrest.fresh) start names with heq | ⟨hold, -⟩
      · rw [heq, hlink]
      · rw [hold hrest.fresh] at hlink
        cases hlink
    rw [walk, hsame]
    exact ih hself

/-- The target of a link starts in a directory. -/
theorem isDir_of_link {next : Location} {rest : List Text} (h : tree.advance start names = .link next rest) :
    tree.entry? next = some .dir := by
  induction names generalizing start with
  | nil => cases h
  | cons name names ih =>
    rcases tree.advance_cons_cases start name names with ⟨mid, hgoes⟩ | ⟨target, hdir, -, -, hlink⟩ | ⟨e, hfailed⟩
    · rw [hgoes.advance] at h
      exact ih h
    · rw [hlink] at h
      cases h
      exact isDir_linkStart hdir target
    · rw [hfailed] at h
      cases h

/-- A way that arrives at a new file awaited it. -/
theorem awaitsFrom_of_advance {mode : Nat} {content : Utf8.Bytes} (hwell : tree.WellFormed)
    (hfresh : tree.entry? place = none) (hstart : tree.entry? start = some .dir)
    (h : (tree.set place (.file mode content)).advance start names = .arrived place) :
    tree.AwaitsFrom links start names place := by
  induction names generalizing start with
  | nil =>
    cases h
    rw [hfresh] at hstart
    cases hstart
  | cons name rest ih =>
    obtain ⟨next, hgoes, hrest⟩ := exists_goes_of_advance h
    cases hgoes with
    | stay _ hstay => exact (ih hstart hrest).cons (.stay hstart hstay)
    | up _ hstay hup => exact (ih (hwell.dropLast hstart) hrest).cons (.up hstart hstay hup)
    | down _ hheld hentry hnolink =>
      -- the way is at its end, or goes on in a directory, which is no file
      cases rest with
      | nil =>
        cases hrest
        have hfront : tree.advance start [] = .arrived start := rfl
        exact .free hfront hstart hheld hfresh
      | cons name' rest =>
        obtain ⟨_, hgoes', -⟩ := exists_goes_of_advance hrest
        have hnext : start ++ [name] ≠ place := by
          rintro rfl
          have hdir := hgoes'.isDir
          rw [entry?_set_self (by simp)] at hdir
          cases hdir
        have hdir := hgoes'.isDir
        rw [entry?_set_of_ne hnext] at hdir hentry
        exact (ih hdir hrest).cons (.down hstart hheld hentry hnolink)

/-- A way that leads to a new file, also through links, awaited it. -/
theorem awaitsFrom_of_walk {mode : Nat} {content : Utf8.Bytes} (hwell : tree.WellFormed)
    (hfresh : tree.entry? place = none) (hstart : tree.entry? start = some .dir)
    (h : (tree.set place (.file mode content)).walk links start names = .ok place) :
    tree.AwaitsFrom links start names place := by
  have hadvance : ∀ {start next : Location} {names rest : List Text},
      (tree.set place (.file mode content)).advance start names = .link next rest →
      tree.advance start names = .link next rest := by
    intro start next names rest hlink
    rcases advance_set mode content (ne_dir_of_none hfresh) start names with heq | ⟨-, hnew | hnew⟩
    · rw [← heq, hlink]
    · rw [hnew] at hlink
      cases hlink
    · rw [hnew] at hlink
      cases hlink
  induction links generalizing start names with
  | zero =>
    rw [walk] at h
    split at h
    · rename_i harrived
      cases h
      exact awaitsFrom_of_advance hwell hfresh hstart harrived
    · cases h
    · cases h
  | succ links ih =>
    rw [walk] at h
    split at h
    · rename_i harrived
      cases h
      exact awaitsFrom_of_advance hwell hfresh hstart harrived
    · rename_i hlink
      have hlink' := hadvance hlink
      exact .through hlink' (ih (isDir_of_link hlink') h)
    · cases h

variable {p : Path}

/-- A path leads to a new file exactly when it awaited the place of the file. -/
theorem find_set_iff_awaits {mode : Nat} {content : Utf8.Bytes} (hwell : tree.WellFormed)
    (hfresh : tree.entry? place = none) :
    (tree.set place (.file mode content)).find p = .ok place ↔ tree.Awaits p place := by
  have hstart : (tree.set place (.file mode content)).startOf p = tree.startOf p := rfl
  unfold find Awaits
  rw [hstart]
  split
  · rename_i hlong
    simp [Nat.not_lt.mpr hlong]
  · rename_i hshort
    rw [Nat.not_le] at hshort
    constructor
    · intro h
      exact ⟨hshort, awaitsFrom_of_walk hwell hfresh (hwell.isDir_startOf p) h⟩
    · intro h
      exact h.2.walk_set mode content

/-- Following the links of a path that awaits a place comes to the place. -/
theorem Awaits.resolve (h : tree.Awaits p place) (hwell : tree.WellFormed) :
    tree.resolve tree.entries.length [] (tree.startOf p) p.names = .settled place := by
  have hfresh := h.2.fresh
  have hfind : (tree.set place (.file 0 [])).find p = .ok place := (find_set_iff_awaits hwell hfresh).mpr h
  have hdepth : (tree.set place (.file 0 [])).links.length ≤ tree.entries.length := by
    rw [links_set hfresh]
    exact length_links_le tree
  have hlinks : ∀ loc target, entry? (tree.set place (.file 0 [])) loc = some (.link target) ↔
      tree.entry? loc = some (.link target) := by
    intro loc target
    by_cases hloc : loc = place
    · rw [hloc, entry?_set_self (lookup_of_entry?_none hfresh).1, hfresh]
      simp
    · rw [entry?_set_of_ne hloc]
  rw [← resolve_congr hlinks]
  exact resolve_of_find hdepth hfind

/-! ## Paths after a write -/

/-- After a file was put where no directory is, a path leads where it led, or to the file, or is refused. -/
theorem find_set (mode : Nat) (content : Utf8.Bytes) (hdir : tree.entry? place ≠ some .dir) (p : Path) :
    (tree.set place (.file mode content)).find p = tree.find p ∨
      (tree.set place (.file mode content)).find p = .ok place ∨
      (tree.set place (.file mode content)).find p = .error .notADirectory := by
  have hstart : (tree.set place (.file mode content)).startOf p = tree.startOf p := rfl
  unfold find
  rw [hstart]
  split
  · exact .inl rfl
  · rcases walk_set mode content hdir maxLinks (tree.startOf p) p.names with heq | ⟨-, hnew⟩
    · exact .inl heq
    · exact .inr hnew

section
variable {after : FileTree} {text : Text} {loc : Location}

/-- No target stands at the root. -/
theorem Stands.ne_nil {target : Location} (h : tree.Stands target place) : place ≠ [] := by
  obtain ⟨dir, -, rfl⟩ := h
  simp

/-- When the system found something at a path, the canonical location of the path has been replaced there, and the path
still leads there. -/
theorem Replaced.find_of_find (h : tree.Replaced (tree.canonical p) place text after)
    (hstands : tree.Stands (tree.canonical p) place) (hwell : tree.WellFormed) (hfind : tree.find p = .ok loc) :
    after.find p = .ok place := by
  obtain ⟨hne, hnodir, bytes, old, -, -, rfl⟩ := h
  obtain ⟨e, hentry, hnolink⟩ := exists_entry_of_find hwell hfind
  have hplace : place = loc := by
    rw [canonical_of_find hfind] at hstands hne
    obtain ⟨dir, hdir, rfl⟩ := hstands
    rw [directoryOf_of_extends hwell hentry (.refl tree), Except.ok.injEq] at hdir
    rw [← hdir, dropLast_append_lastName hne]
  subst hplace
  cases e with
  | file mode content => rw [← (sameShape_set hentry _ bytes).find, hfind]
  | link target => exact absurd rfl (hnolink target)
  | dir => exact absurd hentry hnodir

/-- When nothing but the last name of a path was missing, the canonical location of the path has been replaced at the
awaited place, and the path leads there. -/
theorem Replaced.find_of_awaits (h : tree.Replaced (tree.canonical p) place text after)
    (hstands : tree.Stands (tree.canonical p) place) (hwell : tree.WellFormed) (hawaits : tree.Awaits p loc) :
    after.find p = .ok place := by
  obtain ⟨hne, -, bytes, old, -, -, rfl⟩ := h
  have hresolve := hawaits.resolve hwell
  have hcanonical : tree.canonical p = loc := by
    rw [canonical, hresolve]
  have hdirect : tree.Direct (tree.canonical p) := Settles.direct ⟨loc, hresolve⟩ hwell
  obtain rfl : place = loc := (hstands.eq_of_direct hdirect hne).trans hcanonical
  exact (find_set_iff_awaits hwell hawaits.2.fresh).mpr hawaits

/-- A path whose links can all be followed leads somewhere after the replacement of its canonical location only if it
led somewhere before or nothing but its last name was missing. -/
theorem Replaced.find_or_awaits (h : tree.Replaced (tree.canonical p) place text after)
    (hstands : tree.Stands (tree.canonical p) place) (hwell : tree.WellFormed) (hsettles : tree.Settles p)
    (hfind : after.find p = .ok loc) : ∃ loc, tree.find p = .ok loc ∨ tree.Awaits p loc := by
  have hdirect := hsettles.direct hwell
  obtain rfl := hstands.eq_of_direct hdirect h.1
  obtain ⟨bytes, -, ⟨mode, content, hfile, rfl⟩ | ⟨hfresh, rfl⟩⟩ := h.of_direct hwell hdirect
  · rw [← (sameShape_set hfile mode bytes).find] at hfind
    exact ⟨loc, .inl hfind⟩
  · rcases find_set 0o600 bytes (ne_dir_of_none hfresh) p with heq | hnew | hnew
    · exact ⟨loc, .inl (heq ▸ hfind)⟩
    · exact ⟨_, .inr ((find_set_iff_awaits hwell hfresh).mp hnew)⟩
    · rw [hnew] at hfind
      cases hfind

/-- After the replacement of its canonical location, a path leads to the place that was replaced or is refused. -/
theorem Replaced.find_cases (h : tree.Replaced (tree.canonical p) place text after)
    (hstands : tree.Stands (tree.canonical p) place) (hwell : tree.WellFormed) :
    after.find p = .ok place ∨ ∃ e, after.find p = .error e := by
  cases hbefore : tree.find p with
  | ok loc => exact .inl (h.find_of_find hstands hwell hbefore)
  | error e =>
    obtain ⟨-, hnodir, bytes, old, -, -, rfl⟩ := h
    rcases find_set (old.getD 0o600) bytes hnodir p with heq | hnew | hnew
    · exact .inr ⟨e, heq.trans hbefore⟩
    · exact .inl hnew
    · exact .inr ⟨_, hnew⟩

end

end FileTree

namespace Artifact

variable {tree after : FileTree} {host : Host} {path : Path} {document : Json} {wrote : Event}

/-- A document that was stored has replaced the place of the canonical location of the path. -/
theorem replaced_of_store (h : store host tree path document = (after, .ok wrote)) :
    path.hasNul = false ∧ ∃ place, tree.Stands (tree.canonical path) place ∧
      tree.Replaced (tree.canonical path) place document.render after := by
  obtain ⟨-, loc, hloc, hnone, rfl, -⟩ := store_eq_ok_iff.mp h
  have hnul : path.hasNul = false := by
    unfold FileTree.destination at hloc
    split at hloc
    · cases hloc
    · rename_i hnul
      exact Bool.eq_false_iff.mpr hnul
  obtain rfl := FileTree.eq_canonical_of_destination hloc
  have hreplacing :=
    FileTree.replacing_replaceAt host.fault (host.seeds 0) tree (tree.canonical path) document.render
  rcases hreplacing.ended_and_passed.1 with ⟨⟨e, he⟩, -⟩ | ⟨-, place, hstands, hreplaced⟩
  · rw [hnone] at he
    cases he
  · exact ⟨hnul, place, hstands, hreplaced⟩

/-- Through a path that leads to a file with the text of a document, the document is loaded. -/
theorem load_of_text {loc : Location} {mode : Nat} {bytes : Utf8.Bytes} (hplain : document.Plain)
    (hnul : path.hasNul = false) (hfind : tree.find path = .ok loc)
    (hfile : tree.entry? loc = some (.file mode bytes)) (hbytes : Utf8.encode document.render = .ok bytes) :
    load tree path = .ok document := by
  rw [load_of_find hnul hfind hfile, decode_render hplain.readable hbytes, readBack_of_finite hplain.finite]

/-- Through a path that the system refuses, nothing is loaded. -/
theorem load_of_refused {e : Errno} (hnul : path.hasNul = false) (hfind : tree.find path = .error e) :
    load tree path = .error (.system e path) := by
  rw [load, hnul, FileTree.read, hfind]
  rfl

/-- In a tree of files: after a document that can be written and read back was stored through a path, the document is
loaded through the path, or the system refuses the path. The document is loaded if the system found something before, or
if nothing but the last name of the path was missing; and only then, if the links of the path can all be followed. -/
theorem load_of_store (hwell : tree.WellFormed) (hplain : document.Plain)
    (h : store host tree path document = (after, .ok wrote)) :
    (load after path = .ok document ∨ ∃ e, after.find path = .error e ∧
        load after path = .error (.system e path)) ∧
      (∀ loc, tree.find path = .ok loc ∨ tree.Awaits path loc → load after path = .ok document) ∧
      (tree.Settles path → load after path = .ok document →
        ∃ loc, tree.find path = .ok loc ∨ tree.Awaits path loc) := by
  obtain ⟨hnul, place, hstands, hreplaced⟩ := replaced_of_store h
  have hload : after.find path = .ok place → load after path = .ok document := by
    obtain ⟨-, -, bytes, old, hbytes, -, rfl⟩ := hreplaced
    intro hfind
    exact load_of_text hplain hnul hfind (FileTree.entry?_set_self hstands.ne_nil) hbytes
  refine ⟨?_, ?_, ?_⟩
  · rcases hreplaced.find_cases hstands hwell with hfind | ⟨e, hfind⟩
    · exact .inl (hload hfind)
    · exact .inr ⟨e, hfind, load_of_refused hnul hfind⟩
  · rintro loc (hfind | hawaits)
    · exact hload (hreplaced.find_of_find hstands hwell hfind)
    · exact hload (hreplaced.find_of_awaits hstands hwell hawaits)
  · intro hsettles hloaded
    obtain ⟨-, loc, -, -, hfind, -⟩ := load_eq_ok hloaded
    exact hreplaced.find_or_awaits hstands hwell hsettles hfind

/-- A document that was stored without a failure. -/
theorem exists_of_isOk {stored : FileTree × Except Failure Event} (h : stored.2.isOk = true) :
    ∃ after wrote, stored = (after, .ok wrote) := by
  obtain ⟨after, result⟩ := stored
  cases result with
  | error e => cases h
  | ok wrote => exact ⟨after, wrote, rfl⟩

theorem plain_obj_nil : (Json.obj []).Plain := Json.plain_obj List.nodup_nil nofun nofun

/-- A tree with a link to a file that is not there. -/
def linkToNone : FileTree where
  entries := [([Text.ofString "link"], .link (Text.ofString "new.json"))]
  here := []

/-- The path of the link. -/
def pathOfLink : Path := ⟨.relative, [Text.ofString "link"]⟩

theorem load_of_store_linkToNone :
    ∃ after wrote, store .plain linkToNone pathOfLink (.obj []) = (after, .ok wrote) ∧
      load after pathOfLink = .ok (.obj []) := by
  obtain ⟨after, wrote, hstore⟩ := exists_of_isOk
    (show (store .plain linkToNone pathOfLink (.obj [])).2.isOk = true by decide +kernel)
  have hlink : linkToNone.advance [] pathOfLink.names = .link [] [Text.ofString "new.json"] := by decide +kernel
  have hfree : linkToNone.AwaitsFrom 39 [] ([] ++ [Text.ofString "new.json"]) ([] ++ [Text.ofString "new.json"]) :=
    .free rfl rfl (by decide +kernel) (by decide +kernel)
  have hawaits : linkToNone.Awaits pathOfLink [Text.ofString "new.json"] :=
    ⟨by decide +kernel, .through hlink hfree⟩
  obtain ⟨-, hloaded, -⟩ := load_of_store (by decide +kernel) plain_obj_nil hstore
  exact ⟨after, wrote, hstore, hloaded _ (.inr hawaits)⟩

/-- A path through a directory that is not there and up again. -/
def throughMissing : Path := ⟨.relative, [Text.ofString "missing", Path.dotDot, Text.ofString "A.json"]⟩

/-- Through a directory that is not there a document is stored, but not loaded. -/
theorem load_of_store_throughMissing :
    ¬∀ (host : Host) (tree after : FileTree) (path : Path) (document : Json) (wrote : Event),
      tree.WellFormed → document.Plain → store host tree path document = (after, .ok wrote) →
        load after path = .ok document := by
  intro h
  obtain ⟨after, wrote, hstore⟩ := exists_of_isOk
    (show (store .plain ⟨[], []⟩ throughMissing (.obj [])).2.isOk = true by decide +kernel)
  have hrefused : (load (store .plain ⟨[], []⟩ throughMissing (.obj [])).1 throughMissing).isOk = false := by
    decide +kernel
  rw [hstore, h .plain ⟨[], []⟩ after throughMissing (.obj []) wrote (by decide +kernel) plain_obj_nil hstore]
    at hrefused
  cases hrefused

end Artifact

end Redeclare

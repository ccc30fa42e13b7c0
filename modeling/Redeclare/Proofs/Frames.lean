import Redeclare.Proofs.Requests

/-!
# What a request leaves alone

A request that declares a function anew changes the content of one file: of the one that the system reaches when it
opens the path of the request, through whatever links. The file keeps its mode, every other entry is the same as before,
nothing comes in or goes away, and every path leads where it led. So all paths to the file read the new content, and no
other path reads anything else than before.
-/

namespace Redeclare

namespace FileTree

variable {tree : FileTree} {loc : Location} {mode : Nat} {content : Utf8.Bytes}

/-- Two trees that differ in the content of the file at `loc` and in nothing else; the content is `bytes` in the second,
and every path that leads to the file reads it there. -/
structure Rewritten (before after : FileTree) (loc : Location) (bytes : Utf8.Bytes) : Prop where
  file : ∃ mode content, before.entry? loc = some (.file mode content) ∧ after.entry? loc = some (.file mode bytes)
  others : ∀ other, other ≠ loc → after.entry? other = before.entry? other
  locations : after.entries.map (·.1) = before.entries.map (·.1)
  finds : ∀ path, after.find path = before.find path
  reads : ∀ path, before.find path = .ok loc → after.read path = .ok bytes
  readsOthers : ∀ path, before.find path ≠ .ok loc → after.read path = before.read path

/-- Overwriting a file with its own mode changes its content and nothing else. -/
theorem rewritten_set (h : tree.entry? loc = some (.file mode content)) (bytes : Utf8.Bytes) :
    Rewritten tree (tree.set loc (.file mode bytes)) loc bytes := by
  have hne : loc ≠ [] := ne_nil_of_file h
  have hfinds : ∀ path, (tree.set loc (.file mode bytes)).find path = tree.find path := fun path =>
    ((sameShape_set h mode bytes).find path).symm
  refine ⟨⟨mode, content, h, entry?_set_self hne⟩, fun other => entry?_set_of_ne, ?_, hfinds, ?_, ?_⟩
  · rw [entry?_of_ne_nil hne] at h
    exact locations_assign h _
  · intro path hfind
    rw [read, hfinds, hfind]
    simp only [entry?_set_self hne]
  · intro path hfind
    rw [read, read, hfinds]
    split
    · rfl
    · rename_i other hother
      rw [entry?_set_of_ne (by rintro rfl; exact hfind hother)]

/-- The links are the same. -/
theorem Rewritten.link_iff {before after : FileTree} {bytes : Utf8.Bytes} (h : Rewritten before after loc bytes)
    (other : Location) (target : Text) :
    after.entry? other = some (.link target) ↔ before.entry? other = some (.link target) := by
  by_cases hother : other = loc
  · subst hother
    obtain ⟨mode, content, hbefore, hafter⟩ := h.file
    simp [hbefore, hafter]
  · rw [h.others other hother]

end FileTree

namespace Request

variable {r : Request} {host : Host} {tree : FileTree}

/-- In a tree of files, whatever links lead to the artifact: a request that comes to the outcome that its function was
declared anew, or had been so before, replaces the content of the file that the system reaches through its path by the
encoded document in which the first matching entry is changed. Nothing else in the tree changes. -/
theorem rewritten_of_result {outcome : Outcome} (hwell : tree.WellFormed)
    (h : (r.run host tree).result = .ok outcome) (hstatus : outcome.status = .patched ∨ outcome.status = .unchanged) :
    ∃ loc m document es entry bytes, tree.find r.path = .ok loc ∧ r.Planned tree m document es entry ∧
      Utf8.encode (r.changed m document es).render = .ok bytes ∧
      FileTree.Rewritten tree (r.run host tree).tree loc bytes ∧
      ∀ other target, (r.run host tree).tree.entry? other = some (.link target) ↔
        tree.entry? other = some (.link target) := by
  obtain ⟨m, document, es, entry, loc, mode, content, bytes, hplanned, -, hfind, hfile, -, hbytes, htree, -⟩ :=
    exists_of_wrote hwell (wrote_of_result h hstatus)
  have hrewritten : FileTree.Rewritten tree (r.run host tree).tree loc bytes := by
    rw [htree]
    exact FileTree.rewritten_set hfile bytes
  exact ⟨loc, m, document, es, entry, bytes, hfind, hplanned, hbytes, hrewritten, hrewritten.link_iff⟩

/-- A tree in which links lead to a directory with an artifact, and others to themselves or nowhere. -/
def linked : FileTree where
  entries :=
    [([Text.ofString "out"], .dir),
      ([Text.ofString "out", Text.ofString "A.json"],
        .file 0o640 (Utf8.encodeChars "\x7b\"abi\":[\x7b\"type\":\"function\",\"name\":\"f\"\x7d]\x7d".toList)),
      ([Text.ofString "first"], .link (Text.ofString "second")),
      ([Text.ofString "second"], .link (Text.ofString "./out")),
      ([Text.ofString "loop"], .link (Text.ofString "loop")),
      ([Text.ofString "nowhere"], .link (Text.ofString "gone"))]
  here := []

/-- The function `f` of the artifact is to be a view; the path goes through both links and up again. -/
def viewThroughLinks : Request where
  path := ⟨.relative, ["first", "..", "second", "A.json"].map Text.ofString⟩
  function := .str (Text.ofString "f")
  mutability := .str (Text.ofString "view")

theorem rewritten_of_result_linked :
    ∃ bytes, FileTree.Rewritten linked (viewThroughLinks.run .plain linked).tree
      [Text.ofString "out", Text.ofString "A.json"] bytes := by
  have hpatched : ((viewThroughLinks.run .plain linked).result.toOption.map (·.status)) = some .patched := by
    decide +kernel
  obtain ⟨outcome, houtcome, hstatus⟩ := Option.map_eq_some_iff.mp hpatched
  obtain ⟨loc, -, -, -, -, bytes, hfind, -, -, hrewritten, -⟩ :=
    rewritten_of_result (show linked.WellFormed by decide +kernel) (eq_ok_of_toOption houtcome) (.inl hstatus)
  have hloc : linked.find viewThroughLinks.path = .ok [Text.ofString "out", Text.ofString "A.json"] := by
    decide +kernel
  obtain rfl := Except.ok.inj (hloc.symm.trans hfind)
  exact ⟨bytes, hrewritten⟩

end Request

end Redeclare

import Redeclare.Proofs.Redeclared
import Redeclare.Proofs.Requests

/-!
# Histories of one artifact

Any number of requests for functions of one artifact, through whatever paths lead to it, some of them refused or
failing: the file holds its first bytes until one writes, and after that the first document with, for each name, the
mutability of the last request that wrote for it. No update is lost and nothing else changes. One step keeps this, and
so does every sequence of steps.
-/

namespace Redeclare

/-- A request for a named function, and the host on which it is made. -/
structure Call where
  path : Path
  function : Text
  mutability : Json
  host : Host

namespace Call

/-- What a call asks for. -/
def request (c : Call) : Request := ⟨c.path, .str c.function, c.mutability⟩

/-- Does what a call asks for. -/
def run (c : Call) (tree : FileTree) : Run Outcome := c.request.run c.host tree

/-- Does what calls ask for, one after another. -/
def runAll (tree : FileTree) : List Call → FileTree
  | [] => tree
  | c :: rest => runAll (c.run tree).tree rest

/-- What a call wrote: the name of its function with its mutability, or nothing. -/
def written (tree : FileTree) (c : Call) : List (Text × Json) :=
  if (c.run tree).wrote then [(c.function, c.mutability)] else []

/-- What calls wrote, one after another. -/
def writtenAll (tree : FileTree) : List Call → List (Text × Json)
  | [] => []
  | c :: rest => c.written tree ++ writtenAll (c.run tree).tree rest

end Call

/-- A file in a tree of files that holds an artifact with finite doubles. -/
structure Holding (tree : FileTree) (loc : Location) (mode : Nat) (content : Utf8.Bytes) (document : Json)
    (es : List Abi.Entry) : Prop where
  wellFormed : tree.WellFormed
  file : tree.entry? loc = some (.file mode content)
  decode : Artifact.decode content = .ok document
  entries : Abi.entries document = .ok es
  finite : document.Finite

/-- The document after declarations. -/
def redeclaredDocument (document : Json) (es : List Abi.Entry) (declared : List (Text × Json)) : Json :=
  Abi.withEntries document (Abi.redeclared (Abi.latest declared) es)

/-- The tree after declarations that were written: the first one, or the one in which the file holds the document after
them. -/
inductive After (tree : FileTree) (loc : Location) (mode : Nat) (document : Json) (es : List Abi.Entry)
    (declared : List (Text × Json)) (after : FileTree) : Prop
  | untouched : declared = [] → after = tree → After tree loc mode document es declared after
  | written (bytes : Utf8.Bytes) : declared ≠ [] →
      Utf8.encode (redeclaredDocument document es declared).render = .ok bytes →
      Artifact.decode bytes = .ok (redeclaredDocument document es declared) →
      (redeclaredDocument document es declared).Finite → after = tree.set loc (.file mode bytes) →
      After tree loc mode document es declared after

section
variable {tree after : FileTree} {loc : Location} {mode : Nat} {content : Utf8.Bytes} {document : Json}
  {es : List Abi.Entry} {declared : List (Text × Json)}

theorem redeclaredDocument_nil (h : Abi.entries document = .ok es) : redeclaredDocument document es [] = document := by
  rw [redeclaredDocument, Abi.latest_nil, Abi.redeclared_none, Abi.withEntries_self h]

/-- The entries after declarations. -/
theorem entries_redeclaredDocument (h : Abi.entries document = .ok es) (declared : List (Text × Json)) :
    Abi.entries (redeclaredDocument document es declared) = .ok (Abi.redeclared (Abi.latest declared) es) :=
  Abi.entries_withEntries h

/-- One more declaration changes the document as a request does. -/
theorem changed_redeclaredDocument (c : Call) {m : Text} (hm : c.mutability = .str m) (document : Json)
    (es : List Abi.Entry) (declared : List (Text × Json)) :
    c.request.changed m (redeclaredDocument document es declared) (Abi.redeclared (Abi.latest declared) es) =
      redeclaredDocument document es (declared ++ [(c.function, c.mutability)]) := by
  have hchange := Abi.changeFirst_redeclared (Abi.latest declared) c.function (.str m) es
  rw [redeclaredDocument, redeclaredDocument, Abi.latest_append, hm, ← hchange]
  exact Abi.withEntries_withEntries document _ _

/-- At every time the tree has the shape of the first one, and the file holds the document after the declarations. -/
theorem After.holding (hstart : Holding tree loc mode content document es)
    (h : After tree loc mode document es declared after) :
    FileTree.SameShape tree after ∧ (∀ e, after.set loc e = tree.set loc e) ∧ ∃ bytes,
      Holding after loc mode bytes (redeclaredDocument document es declared)
        (Abi.redeclared (Abi.latest declared) es) := by
  have hentries := entries_redeclaredDocument hstart.entries declared
  cases h with
  | untouched hnone hsame =>
    subst hnone hsame
    refine ⟨.refl _, fun _ => rfl, content, hstart.wellFormed, hstart.file, ?_, hentries, ?_⟩
    · rw [redeclaredDocument_nil hstart.entries]
      exact hstart.decode
    · rw [redeclaredDocument_nil hstart.entries]
      exact hstart.finite
  | written bytes hne hbytes hdecode hfinite hafter =>
    subst hafter
    have hshape := FileTree.sameShape_set hstart.file mode bytes
    exact ⟨hshape, fun e => FileTree.set_set tree loc _ e, bytes, hshape.wellFormed hstart.wellFormed,
      FileTree.entry?_set_self (FileTree.ne_nil_of_file hstart.file), hdecode, hentries, hfinite⟩

/-- One call keeps what is said of the tree after declarations. -/
theorem After.step (hstart : Holding tree loc mode content document es)
    (h : After tree loc mode document es declared after) {c : Call} (hpath : tree.find c.path = .ok loc) :
    After tree loc mode document es (declared ++ c.written after) (c.run after).tree := by
  obtain ⟨hshape, hset, bytes, hnow⟩ := h.holding hstart
  unfold Call.written
  by_cases hwrote : (c.run after).wrote = true
  · rw [if_pos hwrote]
    obtain ⟨m, found, foundEs, entry, foundLoc, foundMode, foundContent, newBytes, hplanned, -, hfind, hfile, hdecode,
      hbytes, htree, -⟩ := Request.exists_of_wrote hnow.wellFormed hwrote
    -- the call read the file: the location, the mode and the document are those that the tree holds
    have hfind' : after.find c.path = .ok loc := hshape.find c.path ▸ hpath
    obtain rfl : loc = foundLoc := Except.ok.inj (hfind'.symm.trans hfind)
    have hentry := Option.some.inj (hnow.file.symm.trans hfile)
    obtain ⟨rfl, rfl⟩ : mode = foundMode ∧ bytes = foundContent := by
      rw [Entry.file.injEq] at hentry
      exact hentry
    obtain rfl : redeclaredDocument document es declared = found := Except.ok.inj (hnow.decode.symm.trans hdecode)
    obtain rfl : Abi.redeclared (Abi.latest declared) es = foundEs :=
      Except.ok.inj (hnow.entries.symm.trans hplanned.entries)
    have hmutability : c.mutability = .str m := (Request.check_eq_ok hplanned.check).2.1
    have hreadable := hplanned.readable_changed
    have hfinite := hplanned.finite_changed hnow.finite
    rw [changed_redeclaredDocument c hmutability] at hbytes hreadable hfinite
    refine .written newBytes (by simp) hbytes ?_ hfinite (htree.trans (hset _))
    exact (Artifact.decode_render hreadable hbytes).trans (Artifact.readBack_of_finite hfinite)
  · rw [if_neg hwrote, List.append_nil]
    have hsame : (c.run after).tree = after := Request.tree_of_not_wrote (Bool.eq_false_iff.mpr hwrote)
    rw [hsame]
    exact h

/-- Any number of calls keep what is said of the tree after declarations. -/
theorem After.run (hstart : Holding tree loc mode content document es)
    (h : After tree loc mode document es declared after) {calls : List Call}
    (hpaths : ∀ c ∈ calls, tree.find c.path = .ok loc) :
    After tree loc mode document es (declared ++ Call.writtenAll after calls) (Call.runAll after calls) := by
  induction calls generalizing declared after with
  | nil =>
    rw [Call.writtenAll, List.append_nil]
    exact h
  | cons c rest ih =>
    rw [Call.writtenAll, Call.runAll, ← List.append_assoc]
    exact ih (h.step hstart (hpaths c List.mem_cons_self)) fun d hd => hpaths d (List.mem_cons_of_mem c hd)

/-- Any number of calls through paths that lead to an artifact with finite doubles: if none wrote, the tree is as it
was. Otherwise only the content of the file differs: it is the encoded text of the first document in which the first
function with each name has the mutability of the last call that wrote for the name, and this document is read back from
it. The entries of that document stand where those of the first one do, between the same other members. -/
theorem runAll_of_holding (h : Holding tree loc mode content document es) (calls : List Call)
    (hpaths : ∀ c ∈ calls, tree.find c.path = .ok loc) :
    (∃ front back, Abi.abiName ∉ front.map (·.1) ∧
      document = .obj (front ++ (Abi.abiName, .arr (es.map .obj)) :: back) ∧
      redeclaredDocument document es (Call.writtenAll tree calls) =
        .obj (front ++ (Abi.abiName, .arr
          ((Abi.redeclared (Abi.latest (Call.writtenAll tree calls)) es).map .obj)) :: back)) ∧
    (Call.writtenAll tree calls = [] → Call.runAll tree calls = tree) ∧
    (Call.writtenAll tree calls ≠ [] → ∃ bytes,
      Utf8.encode (redeclaredDocument document es (Call.writtenAll tree calls)).render = .ok bytes ∧
      Call.runAll tree calls = tree.set loc (.file mode bytes) ∧
      Artifact.decode bytes = .ok (redeclaredDocument document es (Call.writtenAll tree calls)) ∧
      ∀ path, path.hasNul = false → tree.find path = .ok loc →
        Artifact.load (Call.runAll tree calls) path =
          .ok (redeclaredDocument document es (Call.writtenAll tree calls))) := by
  have hafter : After tree loc mode document es ([] ++ Call.writtenAll tree calls) (Call.runAll tree calls) :=
    After.run h (.untouched rfl rfl) hpaths
  rw [List.nil_append] at hafter
  obtain ⟨front, back, hfront, hdocument, haround⟩ := Abi.exists_around_entries h.entries
  refine ⟨⟨front, back, hfront, hdocument, haround _⟩, ?_⟩
  cases hafter with
  | untouched hnone hsame =>
    refine ⟨fun _ => hsame, ?_⟩
    intro hne
    exact absurd hnone hne
  | written bytes hne hbytes hdecode hfinite hset =>
    constructor
    · intro hnone
      exact absurd hnone hne
    · intro _
      refine ⟨bytes, hbytes, hset, hdecode, ?_⟩
      intro path hnul hfind
      rw [hset, Request.load_set hnul hfind h.file, hdecode]

end

/-- An artifact that has two functions with the name `f`. -/
def twoOverloadsText : String :=
  "\x7b\"abi\":[\x7b\"type\":\"function\",\"name\":\"f\"\x7d,\x7b\"type\":\"function\",\"name\":\"f\"\x7d],\"x\":1\x7d"

/-- A tree with this artifact. -/
def twoOverloads : FileTree := .oneFile "A.json" twoOverloadsText

/-- The function `f` of the artifact `A.json` is first to be a view and then to be pure. -/
def viewThenPure : List Call :=
  [⟨⟨.relative, [Text.ofString "A.json"]⟩, Text.ofString "f", .str (Text.ofString "view"), .plain⟩,
    ⟨⟨.relative, [Text.ofString "A.json"]⟩, Text.ofString "f", .str (Text.ofString "pure"), .plain⟩]

theorem runAll_of_holding_twoOverloads :
    ∃ content document es, Holding twoOverloads [Text.ofString "A.json"] 0o644 content document es ∧
      (∀ c ∈ viewThenPure, twoOverloads.find c.path = .ok [Text.ofString "A.json"]) ∧
      (Call.writtenAll twoOverloads viewThenPure).length = 2 ∧ ∃ bytes,
        Utf8.encode (redeclaredDocument document es (Call.writtenAll twoOverloads viewThenPure)).render = .ok bytes ∧
        Call.runAll twoOverloads viewThenPure = twoOverloads.set [Text.ofString "A.json"] (.file 0o644 bytes) := by
  have hcontent : ((Artifact.decode (Utf8.encodeChars twoOverloadsText.toList)).toOption.any fun document =>
      (Abi.entries document).toOption.isSome && decide document.Finite) = true := by decide +kernel
  obtain ⟨document, hdocument, hholds⟩ := (Option.any_eq_true _ _).mp hcontent
  rw [Bool.and_eq_true, decide_eq_true_eq] at hholds
  obtain ⟨hentries, hfinite⟩ := hholds
  obtain ⟨es, hes⟩ := Option.isSome_iff_exists.mp hentries
  have hholding : Holding twoOverloads [Text.ofString "A.json"] 0o644 (Utf8.encodeChars twoOverloadsText.toList)
      document es :=
    ⟨by decide +kernel, rfl, eq_ok_of_toOption hdocument, eq_ok_of_toOption hes, hfinite⟩
  have hpaths : ∀ c ∈ viewThenPure, twoOverloads.find c.path = .ok [Text.ofString "A.json"] := by
    intro c hc
    rcases List.mem_cons.mp hc with rfl | hc
    · rfl
    · rw [List.mem_singleton.mp hc]
      rfl
  have hlength : (Call.writtenAll twoOverloads viewThenPure).length = 2 := by decide +kernel
  have hne : Call.writtenAll twoOverloads viewThenPure ≠ [] := by
    intro hnone
    rw [hnone] at hlength
    cases hlength
  obtain ⟨bytes, hbytes, htree, -⟩ := (runAll_of_holding hholding viewThenPure hpaths).2.2 hne
  exact ⟨_, document, es, hholding, hpaths, hlength, bytes, hbytes, htree⟩

end Redeclare

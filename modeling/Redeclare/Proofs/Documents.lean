import Redeclare.Artifact
import Redeclare.Proofs.LineEnds
import Redeclare.Proofs.Printed
import Redeclare.Proofs.RoundTrip

/-!
# Documents in files

The round trip of whole files: a document that has been written is read back as it was, key for key and number for
number, unless it holds a number that JSON does not have; then it is refused by the name of the first. Every document
that was read has distinct names and no whole number that is too long, so that it can make the round trip again.
-/

namespace Redeclare.Json

/-! ## Whole texts -/

/-- The text of a document is read as the document, or refused for the first name in it that JSON does not have. -/
theorem read_render {v : Json} {cs : List Char} (hv : v.Readable) (h : Text.ofChars cs = v.render) :
    read cs = match constantIn? v.values with
      | none => .ok v
      | some name => .error (.constant name) := by
  have htake := takeValue_render (2 * cs.length + 2) hv ends_nil h (by simp)
  obtain ⟨c, tail, rfl, hblank, -, hmark⟩ := starts_of_takeValue htake
  have hblanks : skipBlanks (c :: tail) = c :: tail := by
    simp [skipBlanks, hblank]
  have hhead : ¬(c :: tail).head? = some '\uFEFF' := by
    simpa using hmark
  rw [read, takeDocument, if_neg hhead, hblanks, htake]
  cases constantIn? v.values <;> rfl

end Redeclare.Json

namespace Redeclare.Artifact

/-- What is read from the text of a document: the document, or the failure for the first name in it that JSON does not
have. -/
def readBack (v : Json) : Except Failure Json :=
  match Json.constantIn? v.values with
  | none => .ok v
  | some name => .error (.noDocument (.constant name))

theorem readBack_of_finite {v : Json} (h : v.Finite) : readBack v = .ok v := by
  rw [readBack, Json.constantIn?_eq_none.mpr h]

/-- A document can be read back exactly when all its doubles are finite. -/
theorem exists_readBack_iff {v : Json} : (∃ w, readBack v = .ok w) ↔ v.Finite := by
  rw [readBack, ← Json.constantIn?_eq_none]
  cases Json.constantIn? v.values <;> simp

/-- A document with a double that is not finite is refused by a name of such a double. -/
theorem readBack_of_not_finite {v : Json} (h : ¬v.Finite) :
    ∃ name ∈ Json.constants, readBack v = .error (.noDocument (.constant name)) := by
  rw [← Json.constantIn?_eq_none] at h
  obtain ⟨name, hname⟩ := Option.ne_none_iff_exists'.mp h
  obtain ⟨w, -, hw⟩ := List.exists_of_findSome?_eq_some hname
  exact ⟨name, Json.mem_constants_of_constantName? hw, by rw [readBack, hname]⟩

/-- A file that holds the text of a document holds what is read back from it. -/
theorem decode_render {v : Json} {bytes : Utf8.Bytes} (hv : v.Readable) (h : Utf8.encode v.render = .ok bytes) :
    decode bytes = readBack v := by
  obtain ⟨cs, hcs, rfl⟩ := Utf8.eq_ofChars_of_encode h
  have hreturn : '\r' ∉ cs := by
    intro hmem
    apply Json.return_not_mem_render v
    rw [hcs]
    exact List.mem_map_of_mem hmem
  rw [decode, Utf8.decode_encodeChars, readBack]
  simp only [Lines.unify_eq_self hreturn, Json.read_render hv hcs.symm]
  cases Json.constantIn? v.values <;> rfl

/-- What a file holds is loaded through every path that leads to the file. -/
theorem load_of_read {tree : FileTree} {path : Path} {content : Utf8.Bytes} (hnul : path.hasNul = false)
    (hread : tree.read path = .ok content) : load tree path = decode content := by
  rw [load, hnul, hread]
  rfl

/-- The round trip of the format: a document with distinct names, whole numbers that are not too long, finite doubles
and no lone surrogate can be written, and whoever reads a file with its text gets the document itself. -/
theorem load_of_plain {v : Json} (h : v.Plain) :
    ∃ bytes, Utf8.encode v.render = .ok bytes ∧ decode bytes = .ok v ∧
      ∀ (tree : FileTree) (path : Path), path.hasNul = false → tree.read path = .ok bytes → load tree path = .ok v := by
  obtain ⟨bytes, hbytes⟩ := Utf8.exists_encode_iff.mpr (Json.lone_not_mem_render.mpr h.characters)
  have hdecode := (decode_render h.readable hbytes).trans (readBack_of_finite h.finite)
  refine ⟨bytes, hbytes, hdecode, ?_⟩
  intro tree path hnul hread
  rw [load_of_read hnul hread, hdecode]

/-- Minus zero stays a double beside a whole zero, and a carriage return stays one. -/
theorem load_of_plain_nested :
    (Json.arr [.double (.finite true .zero), .int 0, .obj [([.char 'a'], .str [.char '\r'])]]).Plain ∧
    ∃ bytes, Utf8.encode (Json.arr [.double (.finite true .zero), .int 0,
        .obj [([.char 'a'], .str [.char '\r'])]]).render = .ok bytes ∧
      load ⟨[([[.char 'x']], .file 0o644 bytes)], []⟩ ⟨.relative, [[.char 'x']]⟩ =
        .ok (.arr [.double (.finite true .zero), .int 0, .obj [([.char 'a'], .str [.char '\r'])]]) := by
  have hplain : (Json.arr [.double (.finite true .zero), .int 0, .obj [([.char 'a'], .str [.char '\r'])]]).Plain := by
    constructor
    · simp [Json.All, Json.values, Json.itemValues, Json.memberValues, Json.DistinctNames]
    · simp [Json.All, Json.values, Json.itemValues, Json.memberValues, Json.ShortWhole, Json.maxDigits]
    · simp [Json.Finite, Json.All, Json.values, Json.itemValues, Json.memberValues, Json.FiniteDouble, Double.IsFinite]
    · simp [Json.All, Json.values, Json.itemValues, Json.memberValues, Json.NoLoneSurrogate]
  obtain ⟨bytes, hbytes, -, hload⟩ := load_of_plain hplain
  exact ⟨hplain, bytes, hbytes, hload _ _ rfl rfl⟩

end Redeclare.Artifact

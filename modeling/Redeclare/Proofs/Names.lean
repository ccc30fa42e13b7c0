import Mathlib.Data.Nat.ModEq
import Redeclare.FileTree.Replace

/-!
# The name of the new file

The candidates for the name of a new file are taken in turn, beginning with one that is drawn. They are all of one
length, and after as many as there are texts of the letters they begin again. So which candidate is drawn first decides
neither whether a name is too long nor whether a free one is found.
-/

namespace Redeclare

/-! ## Lengths -/

namespace Utf8

theorem byteLength_cons (p : Point) (t : Text) : byteLength (p :: t) = width p + byteLength t := rfl

theorem byteLength_append (a b : Text) : byteLength (a ++ b) = byteLength a + byteLength b := by
  induction a with
  | nil => simp [byteLength]
  | cons p a ih => rw [List.cons_append, byteLength_cons, byteLength_cons, ih, Nat.add_assoc]

end Utf8

/-- The length of texts that are joined depends on that of the last through its length alone. -/
theorem Text.byteLength_join_concat {a b : Text} (h : Utf8.byteLength a = Utf8.byteLength b) (separator : Text)
    (ts : List Text) :
    Utf8.byteLength (join separator (ts ++ [a])) = Utf8.byteLength (join separator (ts ++ [b])) := by
  induction ts with
  | nil => exact h
  | cons t rest ih =>
    cases rest with
    | nil => simp only [List.cons_append, List.nil_append, join, Utf8.byteLength_append, h]
    | cons u rest =>
      simp only [List.cons_append] at ih ⊢
      simp only [join, Utf8.byteLength_append, ih]

namespace FileTree

variable {tree : FileTree} {dir : Location} {name : Text}

/-- Every letter is one byte. -/
theorem byteLength_letters (n width : Nat) : Utf8.byteLength (letters n width) = width := by
  have hwidth : ∀ c ∈ nameLetters, Utf8.width (.char c) = 1 := by
    intro c hc
    have hall : nameLetters.all (fun letter => Utf8.width (.char letter) == 1) = true := by decide
    exact eq_of_beq (List.all_eq_true.mp hall c hc)
  have hnonempty : 0 < nameLetters.length := by decide
  induction width generalizing n with
  | zero => rfl
  | succ width ih =>
    have hlt : n % nameLetters.length < nameLetters.length := Nat.mod_lt n hnonempty
    have hletter : nameLetters.getD (n % nameLetters.length) 'a' = nameLetters[n % nameLetters.length] := by
      simp [List.getD, hlt]
    rw [letters, Utf8.byteLength_cons, ih, hletter, hwidth _ (List.getElem_mem hlt), Nat.add_comm]

/-- All candidates for a name have one length. -/
theorem byteLength_besideName (name : Text) (n m : Nat) :
    Utf8.byteLength (besideName name n) = Utf8.byteLength (besideName name m) := by
  simp only [besideName, List.cons_append, Utf8.byteLength_cons, Utf8.byteLength_append, byteLength_letters]

theorem byteLength_candidatePath (target : Location) (n m : Nat) :
    Utf8.byteLength (candidatePath target n).toText = Utf8.byteLength (candidatePath target m).toText := by
  show Utf8.byteLength (Path.slash :: _) = Utf8.byteLength (Path.slash :: _)
  rw [Utf8.byteLength_cons, Utf8.byteLength_cons]
  exact congrArg _ (Text.byteLength_join_concat (byteLength_besideName _ n m) _ _)

/-! ## Turns -/

/-- The letters of a number are those of what it leaves over when it is divided by the number of such texts. -/
theorem letters_mod (n width : Nat) : letters (n % nameLetters.length ^ width) width = letters n width := by
  induction width generalizing n with
  | zero => rfl
  | succ width ih =>
    rw [letters, letters, Nat.pow_succ', Nat.mod_mul_right_mod, Nat.mod_mul_right_div_self, ih]

/-- The candidates begin again after the last. -/
theorem besideName_congr {n m : Nat} (h : n ≡ m [MOD candidates]) (name : Text) :
    besideName name n = besideName name m := by
  have hletters : letters n 8 = letters m 8 := by
    rw [← letters_mod n, ← letters_mod m]
    exact congrArg (letters · 8) h
  rw [besideName, besideName, hletters]

/-- The candidate that is found is free. -/
theorem free_of_freeNumber? {tries n found : Nat} (h : tree.freeNumber? dir name tries n = some found) :
    tree.entry? (dir ++ [besideName name found]) = none := by
  induction tries generalizing n with
  | zero => cases h
  | succ tries ih =>
    rw [freeNumber?] at h
    split at h
    · rename_i hfree
      cases h
      exact Option.isNone_iff_eq_none.mp hfree
    · exact ih h

/-- A free candidate among those that are tried is not passed over. -/
theorem exists_freeNumber?_of_free {tries n k : Nat} (hk : k < tries)
    (hfree : tree.entry? (dir ++ [besideName name (n + k)]) = none) :
    ∃ found, tree.freeNumber? dir name tries n = some found := by
  induction tries generalizing n k with
  | zero => cases hk
  | succ tries ih =>
    rw [freeNumber?]
    split
    · exact ⟨n, rfl⟩
    · rename_i htaken
      cases k with
      | zero => exact absurd (Option.isNone_iff_eq_none.mpr hfree) htaken
      | succ k => exact ih (Nat.lt_of_succ_lt_succ hk) (by rwa [Nat.add_right_comm, Nat.add_assoc])

/-- A candidate is found exactly when one of all candidates is free, whichever is tried first. -/
theorem exists_freeNumber?_iff (seed : Nat) :
    (∃ found, tree.freeNumber? dir name candidates seed = some found) ↔
      ∃ n, tree.entry? (dir ++ [besideName name n]) = none := by
  constructor
  · rintro ⟨found, hfound⟩
    exact ⟨found, free_of_freeNumber? hfound⟩
  · rintro ⟨n, hfree⟩
    have hpos : 0 < candidates := by decide
    -- the turn at which the free candidate comes
    have hturn : seed + (n + (candidates - seed % candidates)) % candidates ≡ n [MOD candidates] := by
      have hseed : seed % candidates + (candidates - seed % candidates) = candidates :=
        Nat.add_sub_cancel' (Nat.mod_lt seed hpos).le
      calc seed + (n + (candidates - seed % candidates)) % candidates
          ≡ seed % candidates + (n + (candidates - seed % candidates)) [MOD candidates] :=
            (Nat.mod_modEq seed _).symm.add (Nat.mod_modEq _ _)
        _ = n + candidates := by omega
        _ ≡ n [MOD candidates] := Nat.add_mod_right n candidates
    refine exists_freeNumber?_of_free (Nat.mod_lt (n + (candidates - seed % candidates)) hpos) ?_
    rwa [besideName_congr hturn]

end FileTree

end Redeclare

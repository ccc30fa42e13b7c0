import Redeclare.Artifact
import Redeclare.Proofs.Numerals
import Redeclare.Proofs.Steps
import Redeclare.Proofs.Values

/-!
# What the reader gives

Every document that was read has distinct names in each object, because members of one name are merged, and no whole
number that is too long, because the reader counts its digits. By induction on the fuel of the reader.
-/

namespace Redeclare.Json

open Digits

/-! ## Scalars -/

/-- A number that was read is a double, or whole and not too long. -/
theorem readable_of_takeRest {negative : Bool} {whole cs rest : List Char} {v : Json}
    (hne : whole ≠ []) (hd : ∀ c ∈ whole, c.isDigit = true) (h : takeRest negative whole cs = .ok (v, rest)) :
    v.Readable := by
  unfold takeRest at h
  simp only at h
  split at h
  · cases h
    simp [Readable, All, values, DistinctNames, ShortWhole]
  split at h
  · split at h
    · cases h
    · rename_i hshort
      cases h
      have hlen := length_toDigits_digitsValue hne hd
      have habs : (if negative = true then -(digitsValue whole : Int) else digitsValue whole).natAbs =
          digitsValue whole := by
        split
        · rw [Int.natAbs_neg, Int.natAbs_natCast]
        · rw [Int.natAbs_natCast]
      simp only [Readable, All, values, DistinctNames, ShortWhole, List.mem_singleton, forall_eq, true_and, habs]
      omega
  · cases h
    simp [Readable, All, values, DistinctNames, ShortWhole]

theorem readable_of_takeNumber {cs rest : List Char} {v : Json} (h : takeNumber cs = .ok (v, rest)) : v.Readable := by
  unfold takeNumber at h
  simp only at h
  split at h
  · rename_i hwhole
    obtain ⟨-, ⟨hne, hd⟩, -⟩ := Grammar.whole_of_takeWhole? hwhole
    exact readable_of_takeRest hne hd h
  · cases h

theorem readable_of_takeScalar {cs rest : List Char} {v : Json} (h : takeScalar cs = .ok (v, rest)) : v.Readable := by
  unfold takeScalar at h
  split at h
  · rename_i word value hfind
    cases h
    have hmem := List.mem_of_find?_eq_some hfind
    simp only [words, List.mem_cons, List.not_mem_nil, or_false, Prod.mk.injEq] at hmem
    rcases hmem with ⟨-, rfl⟩ | ⟨-, rfl⟩ | ⟨-, rfl⟩ <;> simp [Readable, All, values, DistinctNames, ShortWhole]
  split at h
  · cases h
  · exact readable_of_takeNumber h

/-! ## Values -/

/-- Members that were read make a readable object when their values are readable. -/
theorem readable_obj_ofPairs {pairs : List (Text × Json)} (h : ∀ m ∈ pairs, m.2.Readable) :
    (Json.obj (Members.ofPairs pairs)).Readable :=
  all_obj.mpr ⟨⟨Members.nodup_ofPairs pairs, trivial⟩, fun m hm => h m (Members.mem_ofPairs hm)⟩

/-- With one more unit of fuel, a value that is taken is readable if its items and members are. -/
theorem readable_of_takeValue_succ {fuel : Nat}
    (hitems : ∀ {cs rest items}, takeItems fuel cs = .ok (items, rest) → ∀ v ∈ items, v.Readable)
    (hmembers : ∀ {cs rest members}, takeMembers fuel cs = .ok (members, rest) → ∀ m ∈ members, m.2.Readable)
    {cs rest : List Char} {v : Json} (h : takeValue (fuel + 1) cs = .ok (v, rest)) : v.Readable := by
  cases cs with
  | nil => cases h
  | cons c cs =>
    rw [takeValue] at h
    split at h
    · obtain ⟨t, -, rfl⟩ := exists_of_as h
      exact all_str.mpr ⟨trivial, trivial⟩
    split at h
    · split at h
      · cases h
        exact all_obj.mpr ⟨⟨List.nodup_nil, trivial⟩, fun m hm => absurd hm List.not_mem_nil⟩
      · obtain ⟨pairs, htake, rfl⟩ := exists_of_as h
        exact readable_obj_ofPairs (hmembers htake)
    split at h
    · split at h
      · cases h
        exact all_arr.mpr ⟨⟨trivial, trivial⟩, fun v hv => absurd hv List.not_mem_nil⟩
      · obtain ⟨items, htake, rfl⟩ := exists_of_as h
        exact all_arr.mpr ⟨⟨trivial, trivial⟩, hitems htake⟩
    · exact readable_of_takeScalar h

/-- The value of a member that is taken is readable, if every value is. -/
theorem readable_of_takeMember {fuel : Nat} (hvalue : ∀ {cs rest v}, takeValue fuel cs = .ok (v, rest) → v.Readable)
    {cs rest : List Char} {m : Text × Json} (h : takeMember fuel cs = .ok (m, rest)) : m.2.Readable := by
  cases cs with
  | nil => cases h
  | cons c cs =>
    rw [takeMember] at h
    split at h
    · split at h
      · cases h
      split at h
      · cases h
      split at h
      · obtain ⟨v, hv, rfl⟩ := exists_of_as h
        exact hvalue hv
      · cases h
    · cases h

/-- Every value that is taken is readable, alone, as an item and as a member. -/
theorem readable_of_take (fuel : Nat) :
    (∀ {cs rest v}, takeValue fuel cs = .ok (v, rest) → v.Readable) ∧
    (∀ {cs rest items}, takeItems fuel cs = .ok (items, rest) → ∀ v ∈ items, v.Readable) ∧
    (∀ {cs rest members}, takeMembers fuel cs = .ok (members, rest) → ∀ m ∈ members, m.2.Readable) := by
  induction fuel with
  | zero =>
    refine ⟨?_, ?_, ?_⟩
    · intro cs rest v h
      cases h
    · intro cs rest items h
      cases h
    · intro cs rest members h
      cases h
  | succ fuel ih =>
    obtain ⟨ihvalue, ihitems, ihmembers⟩ := ih
    refine ⟨fun h => readable_of_takeValue_succ ihitems ihmembers h, ?_, ?_⟩
    · intro cs rest items h
      rw [takeItems_succ] at h
      exact forall_of_series ihvalue ihitems h
    · intro cs rest members h
      rw [takeMembers_succ] at h
      exact forall_of_series (readable_of_takeMember ihvalue) ihmembers h

/-- Every document that is read is readable. -/
theorem readable_of_read {cs : List Char} {v : Json} (h : read cs = .ok v) : v.Readable := by
  unfold read takeDocument at h
  split at h
  · cases h
  split at h
  · cases h
  · rename_i value rest htake
    split at h
    · cases h
      exact (readable_of_take _).1 htake
    · cases h

end Redeclare.Json

namespace Redeclare.Artifact

/-- Every document in a file is readable. -/
theorem readable_of_decode {content : Utf8.Bytes} {v : Json} (h : decode content = .ok v) : v.Readable := by
  unfold decode at h
  split at h
  · cases h
  split at h
  · cases h
  · rename_i document hread
    cases h
    exact Json.readable_of_read hread

end Redeclare.Artifact

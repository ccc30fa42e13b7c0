import Mathlib.Algebra.Order.Field.Basic
import Mathlib.Algebra.Order.Field.Power
import Mathlib.Algebra.Order.Ring.Abs
import Mathlib.Data.Rat.Cast.Order
import Mathlib.Tactic.FieldSimp
import Mathlib.Tactic.Linarith
import Mathlib.Tactic.Ring
import Redeclare.Proofs.Rounding

/-!
# Nearest doubles

A decimal becomes the double that is nearest to its exact value: every other double is farther away, or as far and has
an odd mantissa where the double has an even one. From half a step beyond the largest finite double on it becomes
infinite. The exact values are rational numbers; the proofs compare whole multiples of the denominator, so that no
division is left in them.
-/

namespace Redeclare

namespace Magnitude

/-- The exact value of a size. -/
def value (x : Magnitude) : ℚ := x.units / unitsOfOne

/-- A number rounds to `x` rather than to `y`: `x` is nearer, or it is as near and even where `y` is odd. -/
def Preferred (q : ℚ) (x y : Magnitude) : Prop :=
  |q - x.value| < |q - y.value| ∨ |q - x.value| = |q - y.value| ∧ x.mantissa % 2 = 0 ∧ y.mantissa % 2 = 1

/-- Half a step beyond the largest size. -/
def limit : ℚ := (2 ^ 54 - 1) * 2 ^ 970

end Magnitude

/-- The double, with a sign, that a number rounds to which is not negative. -/
inductive Double.Rounds (negative : Bool) (q : ℚ) : Double → Prop
  | finite (x : Magnitude) : q < Magnitude.limit → (∀ y, y ≠ x → Magnitude.Preferred q x y) →
      Rounds negative q (.finite negative x)
  | infinite : Magnitude.limit ≤ q → Rounds negative q (.infinite negative)

/-- A number rounds to one double. -/
theorem Double.Rounds.unique {negative : Bool} {q : ℚ} {x y : Double} (hx : Rounds negative q x)
    (hy : Rounds negative q y) : x = y := by
  cases hx with
  | finite x hlow hx =>
    cases hy with
    | finite y _ hy =>
      by_contra hne
      have hxy : x ≠ y := by
        rintro rfl
        exact hne rfl
      rcases hx y hxy.symm with hlt | ⟨heq, heven, hodd⟩
      · rcases hy x hxy with hlt' | ⟨heq', -, -⟩
        · exact lt_asymm hlt hlt'
        · exact hlt.ne heq'.symm
      · rcases hy x hxy with hlt' | ⟨-, heven', -⟩
        · exact hlt'.ne heq.symm
        · omega
    | infinite hhigh => exact absurd hlow (not_lt.mpr hhigh)
  | infinite hhigh =>
    cases hy with
    | finite y hlow _ => exact absurd hlow (not_lt.mpr hhigh)
    | infinite _ => rfl

namespace Magnitude

/-! ## The nearest whole number -/

/-- How far a number is from a multiple of another. -/
def gap (num den k : Nat) : Nat := ((num : Int) - (k * den : Nat)).natAbs

/-- Every other whole number is farther from a ratio than the one to which it is rounded, or as far and odd while that
one is even. -/
theorem gap_roundHalfEven (num : Nat) {den k : Nat} (hd : 0 < den) (hk : k ≠ roundHalfEven num den) :
    gap num den (roundHalfEven num den) < gap num den k ∨
      gap num den (roundHalfEven num den) = gap num den k ∧ roundHalfEven num den % 2 = 0 ∧ k % 2 = 1 := by
  have hnum := Nat.div_add_mod' num den
  have hrest := Nat.mod_lt num hd
  have hside : k * den + den ≤ num / den * den ∨ k = num / den ∨ k = num / den + 1 ∨
      num / den * den + 2 * den ≤ k * den := by
    rcases Nat.lt_trichotomy k (num / den) with h | h | h
    · left
      rw [← Nat.succ_mul]
      exact Nat.mul_le_mul_right den h
    · exact .inr (.inl h)
    · by_cases hnext : k = num / den + 1
      · exact .inr (.inr (.inl hnext))
      · have hle : num / den + 2 ≤ k := by omega
        have hmul := Nat.mul_le_mul_right den hle
        rw [Nat.add_mul] at hmul
        exact .inr (.inr (.inr hmul))
  have hsucc : (num / den + 1) * den = num / den * den + den := Nat.succ_mul _ _
  unfold gap
  unfold roundHalfEven at hk ⊢
  dsimp only at hk ⊢
  generalize num % den = r at *
  split at hk
  · rename_i hdown
    rw [if_pos hdown]
    rcases hside with h | rfl | rfl | h
    · omega
    · exact absurd rfl hk
    · rw [hsucc]
      omega
    · omega
  · rename_i hup
    rw [if_neg hup, hsucc]
    rcases hside with h | rfl | rfl | h
    · omega
    · omega
    · exact absurd rfl hk
    · omega

/-! ## The nearest size -/

/-- The scale that is chosen for a ratio: above 53 significant bits nothing is left, and there are 53 of them unless the
scale is the smallest. -/
theorem scale_spec (num : Nat) {den : Nat} (hd : 0 < den) :
    num < den * 2 ^ ((num / den).log2 - 52 + 53) ∧
      ((num / den).log2 - 52 = 0 ∨ den * 2 ^ ((num / den).log2 - 52 + 52) ≤ num) := by
  have hhigh : num < den * (num / den + 1) := Nat.lt_mul_div_succ num hd
  have hlow : den * (num / den) ≤ num := Nat.mul_div_le num den
  generalize num / den = n at *
  constructor
  · have hn : n + 1 ≤ 2 ^ (n.log2 + 1) := Nat.lt_log2_self
    have hpow : 2 ^ (n.log2 + 1) ≤ 2 ^ (n.log2 - 52 + 53) := Nat.pow_le_pow_right (by decide) (by omega)
    exact hhigh.trans_le (Nat.mul_le_mul_left den (hn.trans hpow))
  · by_cases hscale : n.log2 - 52 = 0
    · exact .inl hscale
    · right
      have hne : n ≠ 0 := by
        rintro rfl
        exact hscale rfl
      have hexp : n.log2 - 52 + 52 = n.log2 := by omega
      rw [hexp]
      exact (Nat.mul_le_mul_left den (Nat.log2_self_le hne)).trans hlow

/-- A size with a smaller scale lies below all numbers with 53 significant bits at the scale. -/
theorem units_lt_of_scale_lt (x : Magnitude) {scale : Nat} (h : x.scale < scale) : x.units < 2 ^ (scale + 52) :=
  x.units_lt (by omega)

/-- A size with no smaller scale is a multiple of the step at the scale; if it is an odd one, its mantissa is odd. -/
theorem exists_units_eq (x : Magnitude) {scale : Nat} (h : scale ≤ x.scale) :
    ∃ k, x.units = k * 2 ^ scale ∧ (k % 2 = 1 → x.mantissa % 2 = 1) := by
  obtain ⟨d, hd⟩ := Nat.exists_eq_add_of_le h
  refine ⟨x.mantissa * 2 ^ d, ?_, ?_⟩
  · rw [units_eq, hd, Nat.pow_add, Nat.mul_comm (2 ^ scale), Nat.mul_assoc]
  · intro hodd
    cases d with
    | zero => simpa using hodd
    | succ d =>
      rw [Nat.pow_succ, ← Nat.mul_assoc, Nat.mul_mod_left] at hodd
      cases hodd

/-- Sizes with the same number of units are the same. -/
theorem eq_of_units {x y : Magnitude} (h : x.units = y.units) : x = y := by
  have hscale : x.scale = y.scale := by
    rw [← log2_units x, ← log2_units y, h]
  have hmantissa : x.mantissa = y.mantissa := by
    rw [units_eq, units_eq, hscale] at h
    exact Nat.eq_of_mul_eq_mul_right (Nat.two_pow_pos _) h
  obtain ⟨mantissa, scale, _, _, _⟩ := x
  obtain ⟨mantissa', scale', _, _, _⟩ := y
  cases hscale
  cases hmantissa
  rfl

/-- The parts of a size have the units that they say. -/
theorem ofParts?_eq_some {mantissa scale : Nat} {x : Magnitude} (h : ofParts? mantissa scale = some x) :
    x.mantissa = mantissa ∧ x.scale = scale := by
  unfold ofParts? at h
  split at h
  · cases h
    exact ⟨rfl, rfl⟩
  · cases h

/-- The size to which a ratio is rounded is a multiple of the step at the scale, by the whole number to which the ratio
is rounded there; it is even where that is. -/
theorem ofRatio?_eq_some {num den : Nat} {x : Magnitude} (h : ofRatio? num den = some x) :
    x.units = roundHalfEven num (den * 2 ^ ((num / den).log2 - 52)) * 2 ^ ((num / den).log2 - 52) ∧
      (roundHalfEven num (den * 2 ^ ((num / den).log2 - 52)) % 2 = 0 → x.mantissa % 2 = 0) := by
  unfold ofRatio? at h
  simp only [pow_eq] at h
  generalize roundHalfEven num (den * 2 ^ ((num / den).log2 - 52)) = m at *
  generalize (num / den).log2 - 52 = scale at *
  split at h
  · rename_i hcarry
    obtain ⟨hm, hs⟩ := ofParts?_eq_some h
    rw [units_eq, hm, hs, hcarry]
    refine ⟨?_, fun _ => by decide⟩
    rw [← Nat.pow_add, ← Nat.pow_add]
    congr 1
    omega
  · obtain ⟨hm, hs⟩ := ofParts?_eq_some h
    rw [units_eq, hm, hs]
    exact ⟨rfl, id⟩

/-- A whole number of units that is as far as the size from the ratio belongs to an odd size where the size is even; all
other sizes are farther. -/
theorem gap_ofRatio? {num den : Nat} (hd : 0 < den) {x y : Magnitude} (h : ofRatio? num den = some x) (hy : y ≠ x) :
    gap num den x.units < gap num den y.units ∨
      gap num den x.units = gap num den y.units ∧ x.mantissa % 2 = 0 ∧ y.mantissa % 2 = 1 := by
  obtain ⟨hunits, heven⟩ := ofRatio?_eq_some h
  obtain ⟨-, hnormal⟩ := scale_spec num hd
  generalize (num / den).log2 - 52 = scale at *
  have hstep : 0 < den * 2 ^ scale := Nat.mul_pos hd (Nat.two_pow_pos _)
  have hgap : ∀ k, gap num den (k * 2 ^ scale) = gap num (den * 2 ^ scale) k := by
    intro k
    unfold gap
    rw [Nat.mul_assoc, Nat.mul_comm (2 ^ scale)]
  by_cases hscale : y.scale < scale
  · -- the size `y` lies below the binade of the ratio, and the smallest size of the binade is nearer
    have hlow := units_lt_of_scale_lt y hscale
    have hbinade : den * 2 ^ (scale + 52) ≤ num := hnormal.resolve_left (by omega)
    have hbelow : y.units * den < den * 2 ^ (scale + 52) := by
      rw [Nat.mul_comm]
      exact (Nat.mul_lt_mul_left hd).mpr hlow
    have hnear : gap num den x.units ≤ gap num (den * 2 ^ scale) (2 ^ 52) := by
      rw [hunits, hgap]
      by_cases hk : 2 ^ 52 = roundHalfEven num (den * 2 ^ scale)
      · rw [← hk]
      · rcases gap_roundHalfEven num hstep hk with hlt | ⟨heq, -, -⟩
        · exact hlt.le
        · exact heq.le
    have hpow : 2 ^ 52 * (den * 2 ^ scale) = den * 2 ^ (scale + 52) := by
      rw [Nat.pow_add, Nat.mul_left_comm, Nat.mul_comm (2 ^ 52)]
    left
    refine hnear.trans_lt ?_
    unfold gap
    rw [hpow]
    omega
  · obtain ⟨k, hk, hodd⟩ := exists_units_eq y (Nat.le_of_not_lt hscale)
    have hne : k ≠ roundHalfEven num (den * 2 ^ scale) := by
      rintro rfl
      exact hy (eq_of_units (hk.trans hunits.symm))
    rw [hunits, hk, hgap, hgap]
    rcases gap_roundHalfEven num hstep hne with hlt | ⟨heq, hround, hkodd⟩
    · exact .inl hlt
    · exact .inr ⟨heq, heven hround, hodd hkodd⟩

/-! ## Overflow -/

theorem ofParts?_eq_none {mantissa scale : Nat} (hm : mantissa < 2 ^ 53) (hnormal : scale = 0 ∨ 2 ^ 52 ≤ mantissa) :
    ofParts? mantissa scale = none ↔ 2045 < scale := by
  unfold ofParts?
  split
  · rename_i h
    simpa using h.2.1
  · rename_i h
    simp only [true_iff]
    by_contra hscale
    exact h ⟨hm, Nat.le_of_not_lt hscale, hnormal⟩

theorem mul_two_pow_add (n a b : Nat) : n * 2 ^ (a + b) = 2 ^ b * (n * 2 ^ a) := by
  rw [Nat.pow_add, ← Nat.mul_assoc, Nat.mul_comm]

/-- The whole number to which a ratio is rounded at its scale has at most 53 bits, or is the first with 54; it has 53 of
them unless the scale is the smallest. -/
theorem roundHalfEven_range {num den scale : Nat} (hd : 0 < den) (hhigh : num < den * 2 ^ (scale + 53))
    (hnormal : scale = 0 ∨ den * 2 ^ (scale + 52) ≤ num) :
    roundHalfEven num (den * 2 ^ scale) ≤ 2 ^ 53 ∧ (scale = 0 ∨ 2 ^ 52 ≤ roundHalfEven num (den * 2 ^ scale)) := by
  have hstep : 0 < den * 2 ^ scale := Nat.mul_pos hd (Nat.two_pow_pos _)
  have hbounds : num / (den * 2 ^ scale) ≤ roundHalfEven num (den * 2 ^ scale) ∧
      roundHalfEven num (den * 2 ^ scale) ≤ num / (den * 2 ^ scale) + 1 := by
    unfold roundHalfEven
    dsimp only
    split
    · omega
    · omega
  have hquotient : num / (den * 2 ^ scale) < 2 ^ 53 := by
    rw [Nat.div_lt_iff_lt_mul hstep, ← mul_two_pow_add]
    exact hhigh
  refine ⟨by omega, hnormal.imp_right fun h => ?_⟩
  have hle : 2 ^ 52 ≤ num / (den * 2 ^ scale) := by
    rw [Nat.le_div_iff_mul_le hstep, ← mul_two_pow_add]
    exact h
  exact hle.trans hbounds.1

/-- A ratio that is rounded to no more than an even number is rounded to it exactly from the middle below it on. -/
theorem roundHalfEven_eq_iff {num den k : Nat} (hd : 0 < den) (heven : (k + 1) % 2 = 0)
    (hle : roundHalfEven num den ≤ k + 1) : roundHalfEven num den = k + 1 ↔ (2 * k + 1) * den ≤ 2 * num := by
  have hnum := Nat.div_add_mod' num den
  have hrest := Nat.mod_lt num hd
  have hmiddle : (2 * k + 1) * den = 2 * (k * den) + den := by
    rw [Nat.succ_mul, Nat.mul_assoc]
  have hside : num / den * den + den ≤ k * den ∨ num / den = k ∨ num / den = k + 1 ∨ k + 1 < num / den := by
    rcases Nat.lt_or_ge (num / den) k with h | h
    · left
      rw [← Nat.succ_mul]
      exact Nat.mul_le_mul_right den h
    · omega
  have hsucc : (k + 1) * den = k * den + den := Nat.succ_mul k den
  unfold roundHalfEven at hle ⊢
  dsimp only at hle ⊢
  rw [hmiddle]
  generalize num % den = r at *
  by_cases hdown : 2 * r < den ∨ 2 * r = den ∧ num / den % 2 = 0
  · rw [if_pos hdown] at hle ⊢
    rcases hside with h | h | h | h
    · constructor
      · intro heq
        rw [heq] at h
        omega
      · intro hge
        omega
    · rw [h] at hnum hdown ⊢
      omega
    · rw [h] at hnum ⊢
      omega
    · omega
  · rw [if_neg hdown] at hle ⊢
    rcases hside with h | h | h | h
    · constructor
      · intro heq
        have hk : num / den = k := by omega
        rw [hk] at h
        omega
      · intro hge
        omega
    · rw [h] at hnum hdown ⊢
      omega
    · omega
    · omega

/-- Whether a ratio is too large for a size shows in its scale, and in the last one in the rounding. -/
theorem ofRatio?_eq_none_iff_scale {num den scale : Nat} (hd : 0 < den) (hscale : (num / den).log2 - 52 = scale) :
    ofRatio? num den = none ↔ 2045 < scale ∨ scale = 2045 ∧ roundHalfEven num (den * 2 ^ scale) = 2 ^ 53 := by
  obtain ⟨hhigh, hnormal⟩ := scale_spec num hd
  unfold ofRatio?
  simp only [pow_eq, hscale] at hhigh hnormal ⊢
  obtain ⟨hle, hrange⟩ := roundHalfEven_range hd hhigh hnormal
  split
  · rename_i hcarry
    rw [ofParts?_eq_none (by decide) (.inr (Nat.le_refl _))]
    omega
  · rename_i hcarry
    rw [ofParts?_eq_none (Nat.lt_of_le_of_ne hle hcarry) hrange]
    omega

/-- A ratio is too large for a size exactly from half a step beyond the largest size on. -/
theorem ofRatio?_eq_none {num den : Nat} (hd : 0 < den) :
    ofRatio? num den = none ↔ (2 ^ 54 - 1) * (den * 2 ^ 2044) ≤ num := by
  obtain ⟨scale, hscale⟩ : ∃ scale, (num / den).log2 - 52 = scale := ⟨_, rfl⟩
  obtain ⟨last, hlast⟩ : ∃ last, 2044 = last := ⟨_, rfl⟩
  obtain ⟨hhigh, hnormal⟩ := scale_spec num hd
  rw [ofRatio?_eq_none_iff_scale hd hscale, hlast]
  rw [hscale] at hhigh hnormal
  have hbinade : ∀ {low high : Nat}, low ≤ high → den * 2 ^ low ≤ den * 2 ^ high := fun h =>
    Nat.mul_le_mul_left den (Nat.pow_le_pow_right (by decide) h)
  have hsplit : ∀ k, den * 2 ^ (last + k) = 2 ^ k * (den * 2 ^ last) := mul_two_pow_add den last
  rcases Nat.lt_trichotomy scale (last + 1) with h | h | h
  · -- the whole binade lies below
    have hbelow := hhigh.trans_le (hbinade (show scale + 53 ≤ last + 53 by omega))
    rw [hsplit] at hbelow
    omega
  · -- in the last binade the ratio is rounded up to the first number with 54 bits
    subst h
    have hround := roundHalfEven_eq_iff (k := 2 ^ 53 - 1)
      (show 0 < den * 2 ^ (last + 1) from Nat.mul_pos hd (Nat.two_pow_pos _)) (by decide)
      (roundHalfEven_range hd hhigh hnormal).1
    have hcount : 2 * (2 ^ 53 - 1) + 1 = 2 ^ 54 - 1 := by decide
    rw [hcount] at hround
    rw [hsplit] at hround ⊢
    omega
  · -- the whole binade lies above
    have habove := (hbinade (show last + 54 ≤ scale + 52 by omega)).trans (hnormal.resolve_left (by omega))
    rw [hsplit] at habove
    omega

/-! ## Exact values -/

theorem unitsOfOne_pos : 0 < unitsOfOne := by
  rw [unitsOfOne_eq]
  apply Nat.two_pow_pos

theorem limit_mul_unitsOfOne : limit * unitsOfOne = ((2 ^ 54 - 1 : Nat) : ℚ) * ((2 ^ 2044 : Nat) : ℚ) := by
  have hpow : ∀ a b : Nat, (2 : ℚ) ^ a * ((2 ^ b : Nat) : ℚ) = ((2 ^ (a + b) : Nat) : ℚ) := by
    intro a b
    rw [Nat.cast_pow, Nat.cast_pow, Nat.cast_ofNat, pow_add]
  have hcount : (2 : ℚ) ^ 54 - 1 = ((2 ^ 54 - 1 : Nat) : ℚ) := by norm_num
  have hexponent : 2044 = 970 + 1074 := rfl
  rw [limit, unitsOfOne_eq, hcount, mul_assoc, hexponent, hpow 970 1074]

section
variable {q : ℚ} {num den : Nat}

/-- How far a ratio of units is from a size, as a number. -/
theorem abs_sub_value (hd : 0 < den) (hq : q = num / den / unitsOfOne) (x : Magnitude) :
    |q - x.value| = gap num den x.units / (den * unitsOfOne) := by
  have hden : (0 : ℚ) < den := Nat.cast_pos.mpr hd
  have hunit : (0 : ℚ) < unitsOfOne := Nat.cast_pos.mpr unitsOfOne_pos
  have hdiff : q - x.value = ((num : Int) - (x.units * den : Nat) : Int) / (den * unitsOfOne) := by
    rw [hq, value]
    generalize unitsOfOne = one at *
    push_cast
    field_simp
  rw [hdiff, abs_div, abs_of_pos (mul_pos hden hunit), gap, Nat.cast_natAbs, Int.cast_abs]

/-- A ratio of units rounds to the double that is chosen for it. -/
theorem rounds_ofRatio? (negative : Bool) (hd : 0 < den) (hq : q = num / den / unitsOfOne) :
    Double.Rounds negative q
      (match ofRatio? num den with
        | some size => .finite negative size
        | none => .infinite negative) := by
  have hden : (0 : ℚ) < den := Nat.cast_pos.mpr hd
  have hunit : (0 : ℚ) < unitsOfOne := Nat.cast_pos.mpr unitsOfOne_pos
  have hlimit : limit ≤ q ↔ (2 ^ 54 - 1) * (den * 2 ^ 2044) ≤ num := by
    rw [hq, le_div_iff₀ hunit, le_div_iff₀ hden, limit_mul_unitsOfOne, mul_assoc, mul_comm _ (den : ℚ), ← Nat.cast_mul,
      ← Nat.cast_mul, Nat.cast_le]
  cases h : ofRatio? num den with
  | none => exact .infinite (hlimit.mpr ((ofRatio?_eq_none hd).mp h))
  | some x =>
    refine .finite x ?_ fun y hy => ?_
    · rw [← not_le, hlimit, ← ofRatio?_eq_none hd, h]
      exact Option.some_ne_none x
    · have hscale : (0 : ℚ) < den * unitsOfOne := mul_pos hden hunit
      unfold Preferred
      rw [abs_sub_value hd hq, abs_sub_value hd hq, div_lt_div_iff_of_pos_right hscale, Nat.cast_lt,
        div_left_inj' hscale.ne', Nat.cast_inj]
      exact gap_ofRatio? hd h hy

/-- Less than half a unit rounds to zero. -/
theorem rounds_zero (negative : Bool) (h0 : 0 ≤ q) (h : 2 * q * unitsOfOne < 1) :
    Double.Rounds negative q (.finite negative zero) := by
  have hunit : (0 : ℚ) < unitsOfOne := Nat.cast_pos.mpr unitsOfOne_pos
  have hnounits : zero.units = 0 := Nat.zero_mul _
  have hzero : zero.value = 0 := by
    rw [value, hnounits, Nat.cast_zero, zero_div]
  have hone : (1 : ℚ) ≤ unitsOfOne := Nat.one_le_cast.mpr unitsOfOne_pos
  have hsmall : q < 1 := by
    have hle := le_mul_of_one_le_right (show 0 ≤ 2 * q by linarith) hone
    linarith
  have hlimit : (1 : ℚ) < limit := one_lt_mul_of_lt_of_le (by norm_num) (one_le_pow₀ (by norm_num))
  refine .finite zero (hsmall.trans hlimit) fun y hy => .inl ?_
  have hunits : 1 ≤ y.units := by
    by_contra hnone
    exact hy (y.eq_zero_of_units (by omega))
  have hvalue : q < y.value - q := by
    have hle : 1 ≤ y.value * unitsOfOne := by
      rw [value, div_mul_cancel₀ _ hunit.ne']
      exact Nat.one_le_cast.mpr hunits
    have hlt : 2 * q * unitsOfOne < y.value * unitsOfOne := h.trans_le hle
    have := lt_of_mul_lt_mul_right hlt hunit.le
    linarith
  rw [hzero, sub_zero, abs_of_nonneg h0, abs_sub_comm, abs_of_pos (h0.trans_lt hvalue)]
  exact hvalue

end

/-! ## Decimals -/

theorem lt_pow_length_toDigits (n : Nat) : n < 10 ^ (Nat.toDigits 10 n).length := by
  have h := Digits.digitsValue_lt fun c hc => Digits.isDigit_of_mem (n := n) hc
  rwa [Digits.digitsValue_toDigits] at h

theorem pow_length_toDigits_le {n : Nat} (h : n ≠ 0) : 10 ^ ((Nat.toDigits 10 n).length - 1) ≤ n := by
  rcases Nat.eq_zero_or_pos ((Nat.toDigits 10 n).length - 1) with h0 | hpos
  · rw [h0, Nat.pow_zero]
    exact Nat.one_le_iff_ne_zero.mpr h
  · by_contra hlt
    have hle := Digits.length_toDigits_le hpos (Nat.lt_of_not_le hlt)
    omega

/-- A decimal of so small an order is less than half a unit. -/
theorem small_of_order {digits : Nat} {exponent : Int}
    (h : ((Nat.toDigits 10 digits).length : Int) + exponent < -330) :
    2 * ((digits : ℚ) * 10 ^ exponent) * unitsOfOne < 1 := by
  obtain ⟨k, hk⟩ : ∃ k : Nat, k = 331 := ⟨_, rfl⟩
  have hdigits : (digits : ℚ) < 10 ^ ((Nat.toDigits 10 digits).length : Int) := by
    rw [zpow_natCast]
    exact_mod_cast lt_pow_length_toDigits digits
  have hpow : (0 : ℚ) < 10 ^ k := by positivity
  have horder : (digits : ℚ) * 10 ^ exponent < (10 ^ k)⁻¹ := by
    calc
      (digits : ℚ) * 10 ^ exponent < 10 ^ ((Nat.toDigits 10 digits).length : Int) * 10 ^ exponent :=
        mul_lt_mul_of_pos_right hdigits (zpow_pos (by norm_num) exponent)
      _ = 10 ^ (((Nat.toDigits 10 digits).length : Int) + exponent) := (zpow_add₀ (by norm_num) _ _).symm
      _ ≤ 10 ^ (-(k : Int)) := zpow_le_zpow_right₀ (by norm_num) (by omega)
      _ = (10 ^ k)⁻¹ := by rw [zpow_neg, zpow_natCast]
  have hunits : 2 * (unitsOfOne : ℚ) ≤ 10 ^ k := by
    have hnat : 2 * unitsOfOne ≤ 10 ^ k := by
      rw [unitsOfOne_eq, hk]
      decide +kernel
    exact_mod_cast hnat
  calc
    2 * ((digits : ℚ) * 10 ^ exponent) * unitsOfOne = (digits : ℚ) * 10 ^ exponent * (2 * unitsOfOne) := by ring
    _ ≤ (digits : ℚ) * 10 ^ exponent * 10 ^ k := mul_le_mul_of_nonneg_left hunits (by positivity)
    _ < (10 ^ k)⁻¹ * 10 ^ k := mul_lt_mul_of_pos_right horder hpow
    _ = 1 := inv_mul_cancel₀ hpow.ne'

/-- A decimal of so large an order is beyond the largest size. -/
theorem large_of_order {digits : Nat} {exponent : Int} (h0 : digits ≠ 0)
    (h : 310 < ((Nat.toDigits 10 digits).length : Int) + exponent) : limit ≤ (digits : ℚ) * 10 ^ exponent := by
  have hdigits : (10 : ℚ) ^ (((Nat.toDigits 10 digits).length - 1 : Nat) : Int) ≤ digits := by
    rw [zpow_natCast]
    exact_mod_cast pow_length_toDigits_le h0
  have hpos : 0 < (Nat.toDigits 10 digits).length := Nat.length_toDigits_pos
  obtain ⟨k, hk⟩ : ∃ k : Nat, k = 309 := ⟨_, rfl⟩
  have hlimit : limit ≤ 10 ^ k := by
    obtain ⟨j, hj⟩ : ∃ j : Nat, j = 970 := ⟨_, rfl⟩
    have hnat : 2 ^ 54 * 2 ^ j ≤ 10 ^ k := by
      rw [hj, hk]
      decide +kernel
    have hle : ((2 : ℚ) ^ 54 - 1) * 2 ^ j ≤ 2 ^ 54 * 2 ^ j := mul_le_mul_of_nonneg_right (by norm_num) (by positivity)
    rw [limit, ← hj]
    refine hle.trans ?_
    exact_mod_cast hnat
  calc
    limit ≤ (10 : ℚ) ^ (k : Int) := by
      rw [zpow_natCast]
      exact hlimit
    _ ≤ 10 ^ ((((Nat.toDigits 10 digits).length - 1 : Nat) : Int) + exponent) :=
      zpow_le_zpow_right₀ (by norm_num) (by omega)
    _ = 10 ^ (((Nat.toDigits 10 digits).length - 1 : Nat) : Int) * 10 ^ exponent := zpow_add₀ (by norm_num) _ _
    _ ≤ digits * 10 ^ exponent := mul_le_mul_of_nonneg_right hdigits (zpow_pos (by norm_num) exponent).le

/-- A decimal of middle order is rounded as a ratio of units. -/
theorem exists_ofDecimal?_eq {digits : Nat} {exponent : Int}
    (hsmall : ¬(digits = 0 ∨ ((Nat.toDigits 10 digits).length : Int) + exponent < -330))
    (hlarge : ¬310 < ((Nat.toDigits 10 digits).length : Int) + exponent) :
    ∃ num den : Nat, 0 < den ∧ (digits : ℚ) * 10 ^ exponent = num / den / unitsOfOne ∧
      ofDecimal? digits exponent = ofRatio? num den := by
  have hunit : (unitsOfOne : ℚ) ≠ 0 := Nat.cast_ne_zero.mpr unitsOfOne_pos.ne'
  unfold ofDecimal?
  simp only [pow_eq]
  rw [if_neg hsmall, if_neg hlarge]
  generalize unitsOfOne = one at hunit ⊢
  cases exponent with
  | ofNat e =>
    refine ⟨digits * 10 ^ e * one, 1, Nat.one_pos, ?_, rfl⟩
    rw [Nat.cast_mul, Nat.cast_one, div_one, mul_div_cancel_right₀ _ hunit, Int.ofNat_eq_natCast, zpow_natCast]
    push_cast
    rfl
  | negSucc e =>
    refine ⟨digits * one, 10 ^ (e + 1), Nat.pow_pos (by decide), ?_, rfl⟩
    rw [Nat.cast_mul, div_right_comm, mul_div_cancel_right₀ _ hunit, zpow_negSucc, div_eq_mul_inv]
    push_cast
    rfl

end Magnitude

/-- A decimal rounds to the double that is chosen for it. -/
theorem Double.rounds_ofDecimal (negative : Bool) (digits : Nat) (exponent : Int) :
    Rounds negative (digits * 10 ^ exponent) (ofDecimal negative digits exponent) := by
  have hnonneg : (0 : ℚ) ≤ digits * 10 ^ exponent := by positivity
  unfold ofDecimal
  by_cases hsmall : digits = 0 ∨ ((Nat.toDigits 10 digits).length : Int) + exponent < -330
  · have hzero : Magnitude.ofDecimal? digits exponent = some .zero := if_pos hsmall
    rw [hzero]
    refine Magnitude.rounds_zero negative hnonneg ?_
    rcases hsmall with rfl | hsmall
    · rw [Nat.cast_zero, zero_mul, mul_zero, zero_mul]
      exact one_pos
    · exact Magnitude.small_of_order hsmall
  by_cases hlarge : 310 < ((Nat.toDigits 10 digits).length : Int) + exponent
  · have hnone : Magnitude.ofDecimal? digits exponent = none := (if_neg hsmall).trans (if_pos hlarge)
    rw [hnone]
    exact .infinite (Magnitude.large_of_order (fun h => hsmall (.inl h)) hlarge)
  · obtain ⟨num, den, hd, hq, heq⟩ := Magnitude.exists_ofDecimal?_eq hsmall hlarge
    rw [heq]
    exact Magnitude.rounds_ofRatio? negative hd hq

end Redeclare

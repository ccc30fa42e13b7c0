import Redeclare.Double.Shortest
import Redeclare.Proofs.Digits

/-!
# Rounding

The double nearest to a decimal depends only on the value of the decimal, not on how many zeros stand at its end. A
double that is written out exactly is read back, and so is its shortest decimal, which is only taken when it is.
-/

namespace Redeclare.Magnitude

/-- The powers of the definitions are those of the monoid of numbers. -/
theorem pow_eq (base k : Nat) : Nat.pow base k = base ^ k := rfl

/-! ## Ratios -/

/-- A ratio is rounded by its value. -/
theorem roundHalfEven_mul (num den : Nat) {k : Nat} (hk : 0 < k) :
    roundHalfEven (num * k) (den * k) = roundHalfEven num den := by
  have hlt : 2 * (num % den * k) < den * k ↔ 2 * (num % den) < den := by
    rw [← Nat.mul_assoc]
    exact Nat.mul_lt_mul_right hk
  have heq : 2 * (num % den * k) = den * k ↔ 2 * (num % den) = den := by
    rw [← Nat.mul_assoc]
    exact Nat.mul_left_inj (by omega)
  unfold roundHalfEven
  simp only [Nat.mul_div_mul_right _ _ hk, Nat.mul_mod_mul_right, hlt, heq]

/-- A whole number is rounded to itself. -/
theorem roundHalfEven_whole (n : Nat) {den : Nat} (hd : 0 < den) : roundHalfEven (n * den) den = n := by
  unfold roundHalfEven
  simp [Nat.mul_div_cancel _ hd, hd]

/-- The size nearest to a ratio depends on its value. -/
theorem ofRatio?_mul (num den : Nat) {k : Nat} (hk : 0 < k) : ofRatio? (num * k) (den * k) = ofRatio? num den := by
  unfold ofRatio?
  simp only [Nat.mul_div_mul_right _ _ hk, Nat.mul_right_comm den k, roundHalfEven_mul _ _ hk]

theorem units_eq (x : Magnitude) : x.units = x.mantissa * 2 ^ x.scale := rfl

/-- The scale of a size is told by the number of its units. -/
theorem log2_units (x : Magnitude) : x.units.log2 - 52 = x.scale := by
  have hlt : x.mantissa < 2 ^ 53 := x.mantissa_lt
  have hnormal : x.scale = 0 ∨ 2 ^ 52 ≤ x.mantissa := x.normal
  rcases hnormal with h | h
  · rw [units_eq, h, Nat.pow_zero, Nat.mul_one]
    by_cases h0 : x.mantissa = 0
    · rw [h0]
      rfl
    · have := (Nat.log2_lt h0).mpr hlt
      omega
  · have hne : x.units ≠ 0 := Nat.mul_ne_zero (by omega) (Nat.pos_iff_ne_zero.mp (Nat.two_pow_pos _))
    have hlow : 52 + x.scale ≤ x.units.log2 := by
      rw [Nat.le_log2 hne, Nat.pow_add, units_eq]
      exact Nat.mul_le_mul_right _ h
    have hhigh : x.units.log2 < 53 + x.scale := by
      rw [Nat.log2_lt hne, Nat.pow_add, units_eq]
      exact (Nat.mul_lt_mul_right (Nat.two_pow_pos _)).mpr hlt
    omega

theorem ofParts?_self (x : Magnitude) : ofParts? x.mantissa x.scale = some x := by
  unfold ofParts?
  rw [dif_pos ⟨x.mantissa_lt, x.scale_le, x.normal⟩]

/-- A whole number of units that a size has gives that size. -/
theorem ofRatio?_units (x : Magnitude) {k : Nat} (hk : 0 < k) : ofRatio? (x.units * k) k = some x := by
  have hround : roundHalfEven (x.units * k) (k * 2 ^ x.scale) = x.mantissa := by
    rw [units_eq, Nat.mul_assoc, Nat.mul_comm (2 ^ x.scale) k]
    exact roundHalfEven_whole _ (Nat.mul_pos hk (Nat.two_pow_pos _))
  unfold ofRatio?
  simp only [pow_eq, Nat.mul_div_cancel _ hk, log2_units, hround]
  have hne : x.mantissa ≠ 2 ^ 53 := Nat.ne_of_lt x.mantissa_lt
  rw [if_neg hne, ofParts?_self]

/-! ## Decimals -/

theorem unitsOfOne_eq : unitsOfOne = 2 ^ 1074 := by
  delta unitsOfOne -- `unfold` would try to compute the power
  simp only [pow_eq]

theorem ofDecimal?_zero (exponent : Int) : ofDecimal? 0 exponent = some zero := by
  simp [ofDecimal?]

/-- A decimal with `k` digits behind the point, of an order that is not cut off, is rounded as a ratio. -/
theorem ofDecimal?_negSucc {digits e k : Nat} (hk : k = e + 1) (h : digits ≠ 0)
    (hlow : -330 ≤ ((Nat.toDigits 10 digits).length : Int) + .negSucc e)
    (hhigh : ((Nat.toDigits 10 digits).length : Int) + .negSucc e ≤ 310) :
    ofDecimal? digits (.negSucc e) = ofRatio? (digits * unitsOfOne) (10 ^ k) := by
  subst hk
  unfold ofDecimal?
  simp only [pow_eq]
  rw [if_neg (fun hor => hor.elim h (Int.not_lt.mpr hlow)), if_neg (Int.not_lt.mpr hhigh)]

/-- A decimal with a zero more and an exponent less is read alike. -/
theorem ofDecimal?_mul_ten (digits : Nat) (exponent : Int) :
    ofDecimal? (digits * 10) (exponent - 1) = ofDecimal? digits exponent := by
  by_cases h0 : digits = 0
  · rw [h0, Nat.zero_mul, ofDecimal?_zero, ofDecimal?_zero]
  · have horder : ((Nat.toDigits 10 (digits * 10)).length : Int) + (exponent - 1) =
        (Nat.toDigits 10 digits).length + exponent := by
      rw [Digits.toDigits_mul_ten h0, List.length_append]
      simp only [List.length_singleton]
      omega
    have h10 : digits * 10 ≠ 0 := by omega
    unfold ofDecimal?
    simp only [pow_eq, horder, h0, h10, false_or]
    split
    · rfl
    split
    · rfl
    -- the step down passes from powers in the numerator to powers in the denominator between 0 and -1
    match exponent with
    | .ofNat (e + 1) =>
      have he : Int.ofNat (e + 1) - 1 = .ofNat e := by simp
      rw [he]
      show ofRatio? (digits * 10 * 10 ^ e * unitsOfOne) 1 = ofRatio? (digits * 10 ^ (e + 1) * unitsOfOne) 1
      rw [Nat.mul_assoc digits 10, ← Nat.pow_succ']
    | .ofNat 0 =>
      show ofRatio? (digits * 10 * unitsOfOne) (10 ^ 1) = ofRatio? (digits * 10 ^ 0 * unitsOfOne) 1
      rw [Nat.mul_right_comm, Nat.pow_zero, Nat.mul_one]
      exact ofRatio?_mul (digits * unitsOfOne) 1 (by decide)
    | .negSucc e =>
      have he : Int.negSucc e - 1 = .negSucc (e + 1) := rfl
      rw [he]
      show ofRatio? (digits * 10 * unitsOfOne) (10 ^ (e + 1 + 1)) = ofRatio? (digits * unitsOfOne) (10 ^ (e + 1))
      rw [Nat.mul_right_comm, Nat.pow_succ 10 (e + 1)]
      exact ofRatio?_mul (digits * unitsOfOne) (10 ^ (e + 1)) (by decide)

/-- A decimal with zeros more and an exponent less by their number is read alike. -/
theorem ofDecimal?_mul_pow (digits k : Nat) (exponent : Int) :
    ofDecimal? (digits * 10 ^ k) (exponent - k) = ofDecimal? digits exponent := by
  induction k with
  | zero => simp
  | succ k ih =>
    have he : exponent - ((k + 1 : Nat) : Int) = exponent - k - 1 := by omega
    rw [Nat.pow_succ, ← Nat.mul_assoc, he, ofDecimal?_mul_ten, ih]

/-! ## Reading back -/

/-- A size has 53 significant bits above its scale. -/
theorem units_lt (x : Magnitude) {k : Nat} (hk : 53 + x.scale ≤ k) : x.units < 2 ^ k := by
  calc
    x.units < 2 ^ 53 * 2 ^ x.scale := (Nat.mul_lt_mul_right (Nat.two_pow_pos _)).mpr x.mantissa_lt
    _ = 2 ^ (53 + x.scale) := (Nat.pow_add 2 53 x.scale).symm
    _ ≤ 2 ^ k := Nat.pow_le_pow_right (by decide) hk

theorem exact_digits (x : Magnitude) : x.exact.digits = x.units * 5 ^ 1074 := by
  simp only [exact, pow_eq]

theorem mul_five_pow_mul_two_pow (n k : Nat) : n * 5 ^ k * 2 ^ k = n * 10 ^ k := by
  rw [Nat.mul_assoc, ← Nat.mul_pow]

/-- A size other than zero, written out exactly, has an order for which the decimal is rounded and not cut off. -/
theorem order_exact (x : Magnitude) (h : x.units ≠ 0) :
    -330 ≤ ((Nat.toDigits 10 x.exact.digits).length : Int) + .negSucc 1073 ∧
      ((Nat.toDigits 10 x.exact.digits).length : Int) + .negSucc 1073 ≤ 310 := by
  have hlow : 744 < (Nat.toDigits 10 x.exact.digits).length := by
    have h5 : 10 ^ 744 ≤ 5 ^ 1074 := by decide +kernel
    rw [exact_digits]
    exact Digits.lt_length_toDigits (h5.trans (Nat.le_mul_of_pos_left _ (Nat.pos_of_ne_zero h)))
  have hhigh : (Nat.toDigits 10 x.exact.digits).length ≤ 1384 := by
    have h2 : 2 ^ (53 + 2045) * 5 ^ 1074 < 10 ^ 1384 := by decide +kernel
    have hunits := x.units_lt (Nat.add_le_add_left x.scale_le 53)
    rw [exact_digits]
    exact Digits.length_toDigits_le (by decide) (Nat.lt_of_le_of_lt (Nat.mul_le_mul_right _ hunits.le) h2)
  omega

/-- The size without units is the one that is written as zero. -/
theorem eq_zero_of_units (x : Magnitude) (h : x.units = 0) : x = zero := by
  have hm : x.mantissa = 0 := (Nat.mul_eq_zero.mp h).resolve_right (Nat.two_pow_pos _).ne'
  have hs : x.scale = 0 := x.normal.resolve_right (by rw [hm]; decide)
  obtain ⟨mantissa, scale, _, _, _⟩ := x
  cases hm
  cases hs
  rfl

/-- A size that is written out exactly is read back. -/
theorem ofDecimal?_exact (x : Magnitude) : ofDecimal? x.exact.digits x.exact.exponent = some x := by
  by_cases h0 : x.units = 0
  · have hdigits : x.exact.digits = 0 := by simp only [exact_digits, h0, Nat.zero_mul]
    rw [hdigits, ofDecimal?_zero, x.eq_zero_of_units h0]
  · obtain ⟨hlow, hhigh⟩ := x.order_exact h0
    have hfive : ∀ k, 5 ^ k ≠ 0 := fun k => (Nat.pow_pos (by decide)).ne'
    have hten : ∀ k, 0 < 10 ^ k := fun k => Nat.pow_pos (by decide)
    have hne : x.exact.digits ≠ 0 := x.exact_digits ▸ Nat.mul_ne_zero h0 (hfive 1074)
    have hunits : x.exact.digits * unitsOfOne = x.units * 10 ^ 1074 := by
      rw [exact_digits, unitsOfOne_eq]
      exact mul_five_pow_mul_two_pow x.units 1074
    have hratio := ofDecimal?_negSucc (k := 1074) rfl hne hlow hhigh
    rw [hunits] at hratio
    exact hratio.trans (x.ofRatio?_units (hten 1074))

/-- Whatever decimal is found on the way from one that is read as a size is read as that size too. -/
theorem isReadFrom_shortestFrom (x : Magnitude) (d : Decimal) (h : x.isReadFrom d = true) :
    ∀ dropped, x.isReadFrom (shortestFrom x d dropped) = true
  | 0 => h
  | dropped + 1 => by
    rw [shortestFrom]
    split
    · rename_i found hfound
      exact List.find?_some hfound
    · exact isReadFrom_shortestFrom x d h dropped

/-- The shortest decimal of a size is read as that size. -/
theorem ofDecimal?_shortest (x : Magnitude) : ofDecimal? x.shortest.digits x.shortest.exponent = some x := by
  have hexact : x.isReadFrom x.exact = true := by
    rw [isReadFrom, ofDecimal?_exact]
    exact beq_self_eq_true _
  have h := x.isReadFrom_shortestFrom x.exact hexact ((Nat.toDigits 10 x.exact.digits).length - 1)
  rw [isReadFrom] at h
  exact eq_of_beq h

end Redeclare.Magnitude

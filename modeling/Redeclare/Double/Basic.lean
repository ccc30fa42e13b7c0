/-!
# Doubles

The numbers of the binary format with 53 significant bits, as exact values: a finite double is a whole number of units
of 2⁻¹⁰⁷⁴. A decimal becomes the nearest double, a tie going to the even neighbour, and what is too large becomes
infinite. The double that is no number comes from no decimal; a caller may hand it in.
-/

namespace Redeclare

/-- The size of a finite double, `mantissa * 2 ^ scale` units of 2⁻¹⁰⁷⁴, written in the one way with the smallest
scale. -/
structure Magnitude where
  mantissa : Nat
  scale : Nat
  mantissa_lt : mantissa < Nat.pow 2 53
  scale_le : scale ≤ 2045
  normal : scale = 0 ∨ Nat.pow 2 52 ≤ mantissa
deriving DecidableEq

/-- A double: a sign and a size, which may be infinite, or no number. Zero has two signs. -/
inductive Double where
  | finite (negative : Bool) (size : Magnitude)
  | infinite (negative : Bool)
  | nan
deriving DecidableEq

namespace Magnitude

/-- No units. -/
def zero : Magnitude := ⟨0, 0, by decide, by decide, .inl rfl⟩

/-- The size in units of 2⁻¹⁰⁷⁴. -/
def units (x : Magnitude) : Nat := x.mantissa * Nat.pow 2 x.scale

/-- The size with this mantissa and scale, if it is one. -/
def ofParts? (mantissa scale : Nat) : Option Magnitude :=
  if h : mantissa < Nat.pow 2 53 ∧ scale ≤ 2045 ∧ (scale = 0 ∨ Nat.pow 2 52 ≤ mantissa) then
    some ⟨mantissa, scale, h.1, h.2.1, h.2.2⟩
  else none

/-! ## Rounding -/

/-- The whole number nearest to `num / den`, the even one of two that are equally near. -/
def roundHalfEven (num den : Nat) : Nat :=
  let q := num / den
  let r := num % den
  if 2 * r < den ∨ (2 * r = den ∧ q % 2 = 0) then q else q + 1

/-- The size nearest to `num / den` units, unless that is beyond the largest. -/
def ofRatio? (num den : Nat) : Option Magnitude :=
  let scale := (num / den).log2 - 52
  let mantissa := roundHalfEven num (den * Nat.pow 2 scale)
  if mantissa = Nat.pow 2 53 then ofParts? (Nat.pow 2 52) (scale + 1) else ofParts? mantissa scale

/-- The units of one. -/
def unitsOfOne : Nat := Nat.pow 2 1074

/-- The size nearest to `digits * 10 ^ exponent`, unless that is beyond the largest. Decimals of an order far outside
that of the doubles are answered without computing the power. -/
def ofDecimal? (digits : Nat) (exponent : Int) : Option Magnitude :=
  let order := (Nat.toDigits 10 digits).length + exponent
  if digits = 0 ∨ order < -330 then some zero
  else if 310 < order then none
  else
    match exponent with
    | .ofNat e => ofRatio? (digits * Nat.pow 10 e * unitsOfOne) 1
    | .negSucc e => ofRatio? (digits * unitsOfOne) (Nat.pow 10 (e + 1))

end Magnitude

namespace Double

/-- The double nearest to a decimal with this sign. -/
def ofDecimal (negative : Bool) (digits : Nat) (exponent : Int) : Double :=
  match Magnitude.ofDecimal? digits exponent with
  | some size => .finite negative size
  | none => .infinite negative

/-- A double that is a number and not infinite. -/
def IsFinite : Double → Prop
  | .finite _ _ => True
  | .infinite _ | .nan => False

instance : DecidablePred IsFinite
  | .finite _ _ => isTrue trivial
  | .infinite _ | .nan => isFalse id

/-- Both zeros, and nothing else. -/
def isZero : Double → Bool
  | .finite _ size => size.mantissa == 0
  | .infinite _ | .nan => false

end Double

end Redeclare

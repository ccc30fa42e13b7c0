import Redeclare.Double.Basic

/-!
# Shortest decimals

The shortest decimal that rounds to a given double, and of several of that length the one nearest to it. Every double
is a decimal of at most some hundred digits, so the search along the lengths ends at the latest where the decimal is
exact.
-/

namespace Redeclare

/-- The decimal `digits * 10 ^ exponent`. -/
structure Decimal where
  digits : Nat
  exponent : Int
deriving DecidableEq, Repr

namespace Magnitude

/-- The decimal that equals the size: a unit is `5 ^ 1074` at the exponent `-1074`. -/
def exact (x : Magnitude) : Decimal := ⟨x.units * Nat.pow 5 1074, -1074⟩

/-- Whether a decimal rounds to this size. -/
def isReadFrom (x : Magnitude) (d : Decimal) : Bool := ofDecimal? d.digits d.exponent == some x

/-- The neighbours of `d` among the decimals with `dropped` digits less, the nearer first; of two that are equally near
the even one is first. -/
def neighbours (d : Decimal) (dropped : Nat) : List Decimal :=
  let step := Nat.pow 10 dropped
  let below : Decimal := ⟨d.digits / step, d.exponent + dropped⟩
  let above : Decimal := ⟨d.digits / step + 1, d.exponent + dropped⟩
  let rest := d.digits % step
  if 2 * rest < step ∨ (2 * rest = step ∧ below.digits % 2 = 0) then [below, above] else [above, below]

/-- The first decimal that rounds to `x` when `dropped` digits, then one fewer, and so on, are taken from `d`. -/
def shortestFrom (x : Magnitude) (d : Decimal) : Nat → Decimal
  | 0 => d
  | dropped + 1 =>
    match (neighbours d (dropped + 1)).find? x.isReadFrom with
    | some found => found
    | none => shortestFrom x d dropped

/-- The shortest decimal that rounds to a size. -/
def shortest (x : Magnitude) : Decimal :=
  let d := x.exact
  shortestFrom x d ((Nat.toDigits 10 d.digits).length - 1)

end Magnitude

end Redeclare

import Redeclare.Double.Shortest
import Redeclare.Text.Basic

/-!
# Doubles as text

A double is written with the digits of its shortest decimal. Where the point goes, and from which size on an exponent is
written, is one record of decisions; the names of infinity and of no number depend on who reads the text.
-/

namespace Redeclare

/-- How the digits of a double are laid out. The point is written in place if at most `leadingZeros` zeros come between
it and the first digit, and at most `widest` digits before it; otherwise an exponent of at least `exponentWidth` digits
says where it belongs. -/
structure NumberLayout where
  leadingZeros : Nat
  widest : Nat
  exponentWidth : Nat
  infinity : List Char
  nan : List Char

namespace NumberLayout

/-- Documents write numbers below 10¹⁶ and from 10⁻⁴ on without an exponent, and infinity by its full name. -/
def document : NumberLayout := ⟨3, 16, 2, ['I', 'n', 'f', 'i', 'n', 'i', 't', 'y'], ['N', 'a', 'N']⟩

/-- Messages write numbers as documents do, but have short names for infinity and no number. -/
def display : NumberLayout := ⟨3, 16, 2, ['i', 'n', 'f'], ['n', 'a', 'n']⟩

/-- Digits without the zeros at their end. -/
def trimZeros (digits : List Char) : List Char := (digits.reverse.dropWhile (· == '0')).reverse

/-- An exponent with its sign, filled with zeros. -/
def exponentText (layout : NumberLayout) (n : Int) : List Char :=
  let digits := Nat.toDigits 10 n.natAbs
  (if n < 0 then '-' else '+') :: List.replicate (layout.exponentWidth - digits.length) '0' ++ digits

/-- The digits laid out, with the point `place` digits after their front. -/
def place (layout : NumberLayout) (digits : List Char) (place : Int) : List Char :=
  if -(layout.leadingZeros : Int) ≤ place ∧ place ≤ 0 then
    '0' :: '.' :: List.replicate place.natAbs '0' ++ digits
  else if 0 < place ∧ place ≤ layout.widest then
    let front := place.toNat
    let fraction := digits.drop front
    digits.take front ++ List.replicate (front - digits.length) '0' ++
      '.' :: (if fraction = [] then ['0'] else fraction)
  else
    let mantissa := match digits with
      | first :: second :: rest => first :: '.' :: second :: rest
      | short => short
    mantissa ++ 'e' :: layout.exponentText (place - 1)

/-- A finite size as text. -/
def magnitude (layout : NumberLayout) (x : Magnitude) : List Char :=
  if x.mantissa = 0 then ['0', '.', '0']
  else
    let d := x.shortest
    let digits := Nat.toDigits 10 d.digits
    layout.place (trimZeros digits) (digits.length + d.exponent)

/-- A double as text. -/
def double (layout : NumberLayout) (x : Double) : List Char :=
  match x with
  | .finite negative size => (if negative then ['-'] else []) ++ layout.magnitude size
  | .infinite negative => (if negative then ['-'] else []) ++ layout.infinity
  | .nan => layout.nan

end NumberLayout

end Redeclare

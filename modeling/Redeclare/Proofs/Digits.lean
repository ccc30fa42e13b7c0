import Mathlib.Algebra.Group.Nat.Defs
import Mathlib.Data.List.TakeWhile
import Redeclare.Double.Layout
import Redeclare.Json.Reader

/-!
# Digits

What the reader does with runs of digits, and what the digits of a number look like: no zero stands at the front, and
the number comes back from them. Zeros in front of digits change nothing; zeros behind them multiply.
-/

namespace Redeclare.Digits

open Json

/-- A text that goes on with something other than a digit, or ends. -/
def NoDigit (rest : List Char) : Prop := ∀ c ∈ rest.head?, c.isDigit = false

theorem noDigit_cons {c : Char} {rest : List Char} (h : c.isDigit = false) : NoDigit (c :: rest) := by
  intro d hd
  cases hd
  exact h

/-! ## Taking digits from a text -/

/-- The digits at the front end where something other than a digit stands. -/
theorem frontDigits_append {ds rest : List Char} (hd : ∀ c ∈ ds, c.isDigit = true) (hr : NoDigit rest) :
    frontDigits (ds ++ rest) = ds := by
  unfold frontDigits
  rw [List.takeWhile_append_of_pos hd]
  cases rest with
  | nil => simp
  | cons c rest => simp [hr c rfl]

/-- What stands behind the digits at the front. -/
theorem afterDigits_append {ds rest : List Char} (hd : ∀ c ∈ ds, c.isDigit = true) (hr : NoDigit rest) :
    afterDigits (ds ++ rest) = rest := by
  unfold afterDigits
  rw [List.dropWhile_append_of_pos hd]
  cases rest with
  | nil => rfl
  | cons c rest => simp [hr c rfl]

/-- A zero and nothing else is taken as the whole part. -/
theorem takeWhole?_zero (rest : List Char) : takeWhole? ('0' :: rest) = some (['0'], rest) := by
  simp [takeWhole?]

/-- Digits that do not begin with a zero are taken as the whole part. -/
theorem takeWhole?_append {c : Char} {ds rest : List Char} (hc : c.isDigit = true) (h0 : c ≠ '0')
    (hd : ∀ c ∈ ds, c.isDigit = true) (hr : NoDigit rest) :
    takeWhole? (c :: ds ++ rest) = some (c :: ds, rest) := by
  rw [List.cons_append, takeWhole?, if_neg h0, if_pos hc, frontDigits_append hd hr, afterDigits_append hd hr]

/-- A point with digits behind it is taken as the fraction. -/
theorem takeFraction?_append {ds rest : List Char} (hne : ds ≠ []) (hd : ∀ c ∈ ds, c.isDigit = true)
    (hr : NoDigit rest) : takeFraction? ('.' :: ds ++ rest) = some (ds, rest) := by
  rw [List.cons_append, takeFraction?, frontDigits_append hd hr, afterDigits_append hd hr, if_neg hne]

/-- The digits of an exponent at the front of a text, behind its letter and its sign. -/
def exponentDigits? (negative : Bool) (body : List Char) : Option (Int × List Char) :=
  if frontDigits body = [] then none
  else
    some (if negative then -(digitsValue (frontDigits body) : Int) else digitsValue (frontDigits body),
      afterDigits body)

section
variable {c : Char} {body : List Char}

/-- An exponent with a minus sign behind its letter. -/
theorem takeExponent?_minus (hc : c = 'e' ∨ c = 'E') :
    takeExponent? (c :: '-' :: body) = exponentDigits? true body := by
  simp only [takeExponent?, if_pos hc]
  rfl

/-- An exponent with a plus sign behind its letter. -/
theorem takeExponent?_plus (hc : c = 'e' ∨ c = 'E') :
    takeExponent? (c :: '+' :: body) = exponentDigits? false body := by
  simp only [takeExponent?, if_pos hc]
  rfl

/-- An exponent without a sign behind its letter. -/
theorem takeExponent?_plain (hc : c = 'e' ∨ c = 'E') (hminus : body.head? ≠ some '-') (hplus : body.head? ≠ some '+') :
    takeExponent? (c :: body) = exponentDigits? false body := by
  cases body with
  | nil =>
    simp only [takeExponent?, if_pos hc]
    rfl
  | cons d body =>
    have hminus' : d ≠ '-' := by simpa using hminus
    have hplus' : d ≠ '+' := by simpa using hplus
    simp [takeExponent?, hc, hminus', hplus', exponentDigits?]

/-- Behind anything but its letter there is no exponent. -/
theorem takeExponent?_of_ne (hc : ¬(c = 'e' ∨ c = 'E')) : takeExponent? (c :: body) = none := by
  simp only [takeExponent?, if_neg hc]

end

/-! ## The digits of a number -/

/-- Every digit of a number is a digit. -/
theorem isDigit_of_mem {n : Nat} {c : Char} (h : c ∈ Nat.toDigits 10 n) : c.isDigit = true :=
  Nat.isDigit_of_mem_toDigits (by decide) (by decide) h

theorem isDigit_of_mem_zero : ∀ c ∈ ['0'], c.isDigit = true := by
  intro c hc
  rw [List.mem_singleton.mp hc]
  rfl

/-- The digits of a number other than zero do not begin with a zero. -/
theorem exists_cons_toDigits {n : Nat} (h : n ≠ 0) : ∃ c ds, Nat.toDigits 10 n = c :: ds ∧ c ≠ '0' := by
  induction n using Nat.strongRecOn with
  | _ n ih =>
    by_cases hn : n < 10
    · refine ⟨Nat.digitChar n, [], Nat.toDigits_of_lt_base hn, ?_⟩
      have h10 : ∀ m < 10, m ≠ 0 → Nat.digitChar m ≠ '0' := by decide
      exact h10 n hn h
    · obtain ⟨c, ds, hds, hc⟩ := ih (n / 10) (by omega) (by omega)
      refine ⟨c, ds ++ [Nat.digitChar (n % 10)], ?_, hc⟩
      rw [Nat.toDigits_of_base_le (by decide) (by omega), hds, List.cons_append]

/-- Zeros in front of digits do not change the number. -/
theorem digitsValue_zeros_append (k : Nat) (ds : List Char) :
    digitsValue (List.replicate k '0' ++ ds) = digitsValue ds := by
  simp [digitsValue, Nat.ofDigitChars_append]

/-- Zeros behind digits multiply the number by powers of ten. -/
theorem digitsValue_append_zeros (ds : List Char) (k : Nat) :
    digitsValue (ds ++ List.replicate k '0') = digitsValue ds * 10 ^ k := by
  simp [digitsValue, Nat.ofDigitChars_append, Nat.mul_comm]

theorem digitsValue_toDigits (n : Nat) : digitsValue (Nat.toDigits 10 n) = n :=
  Nat.ofDigitChars_ten_toDigits

/-- Digits denote a number below the power of ten that has one digit more. -/
theorem digitsValue_lt {ds : List Char} (hd : ∀ c ∈ ds, c.isDigit = true) : digitsValue ds < 10 ^ ds.length := by
  induction ds with
  | nil => decide
  | cons c ds ih =>
    have hlt := ih fun d h => hd d (List.mem_cons_of_mem c h)
    have hc : c.toNat - '0'.toNat ≤ 9 := by
      have h := hd c List.mem_cons_self
      simp only [Char.isDigit, Bool.and_eq_true, decide_eq_true_eq, UInt32.le_iff_toNat_le] at h
      have h9 : c.toNat ≤ 57 := h.2
      have h0 : '0'.toNat = 48 := rfl
      omega
    unfold digitsValue at hlt ⊢
    rw [Nat.ofDigitChars_cons, Nat.ofDigitChars_eq_ofDigitChars_zero, List.length_cons, Nat.pow_succ]
    have hmul : 10 ^ ds.length * (10 * 0 + (c.toNat - '0'.toNat)) ≤ 10 ^ ds.length * 9 :=
      Nat.mul_le_mul_left _ (by omega)
    omega

/-- A number from a power of ten on has more digits than the power has zeros. -/
theorem lt_length_toDigits {n k : Nat} (h : 10 ^ k ≤ n) : k < (Nat.toDigits 10 n).length := by
  by_cases hk : k = 0
  · rw [hk]
    exact Nat.length_toDigits_pos
  · rw [← Nat.not_le, Nat.length_toDigits_le_iff (by decide) (Nat.pos_of_ne_zero hk), Nat.not_lt]
    exact h

/-- A number below a power of ten has no more digits than the power has zeros. -/
theorem length_toDigits_le {n k : Nat} (hk : 0 < k) (h : n < 10 ^ k) : (Nat.toDigits 10 n).length ≤ k :=
  (Nat.length_toDigits_le_iff (by decide) hk).mpr h

/-- A number read from digits has no more digits than were read. -/
theorem length_toDigits_digitsValue {ds : List Char} (hne : ds ≠ []) (hd : ∀ c ∈ ds, c.isDigit = true) :
    (Nat.toDigits 10 (digitsValue ds)).length ≤ ds.length :=
  length_toDigits_le (List.length_pos_iff.mpr hne) (digitsValue_lt hd)

/-- The digits of a number times ten have a zero at the end. -/
theorem toDigits_mul_ten {n : Nat} (h : n ≠ 0) : Nat.toDigits 10 (n * 10) = Nat.toDigits 10 n ++ ['0'] := by
  rw [Nat.toDigits_of_base_le (by decide) (by omega), Nat.mul_div_cancel _ (by decide), Nat.mul_mod_left]
  rfl

/-! ## Trimming zeros -/

/-- Digits are their trimmed form with zeros behind it. -/
theorem exists_trimZeros (ds : List Char) : ∃ k, ds = NumberLayout.trimZeros ds ++ List.replicate k '0' := by
  have hall : ∀ c ∈ ds.reverse.takeWhile (· == '0'), c = '0' := by
    intro c hc
    simpa using List.mem_takeWhile_imp hc
  refine ⟨(ds.reverse.takeWhile (· == '0')).length, ?_⟩
  have hsplit := List.takeWhile_append_dropWhile (p := (· == '0')) (l := ds.reverse)
  have hrev := congrArg List.reverse hsplit
  rw [List.reverse_append, List.reverse_reverse, List.eq_replicate_of_mem hall, List.reverse_replicate] at hrev
  exact hrev.symm

/-- Trimming takes away only. -/
theorem mem_of_mem_trimZeros {c : Char} {ds : List Char} (h : c ∈ NumberLayout.trimZeros ds) : c ∈ ds := by
  obtain ⟨k, hk⟩ := exists_trimZeros ds
  rw [hk]
  exact List.mem_append_left _ h

/-- Digits that begin with something other than a zero keep it when they are trimmed. -/
theorem trimZeros_cons {c : Char} (ds : List Char) (hc : c ≠ '0') :
    ∃ es, NumberLayout.trimZeros (c :: ds) = c :: es ∧ ∀ d ∈ es, d ∈ ds := by
  obtain ⟨k, hk⟩ := exists_trimZeros (c :: ds)
  cases ht : NumberLayout.trimZeros (c :: ds) with
  | nil =>
    rw [ht, List.nil_append] at hk
    have hmem : c ∈ List.replicate k '0' := hk ▸ List.mem_cons_self
    exact absurd (List.eq_of_mem_replicate hmem) hc
  | cons d es =>
    rw [ht, List.cons_append, List.cons.injEq] at hk
    refine ⟨es, by rw [hk.1], fun e he => ?_⟩
    rw [hk.2]
    exact List.mem_append_left _ he

end Redeclare.Digits

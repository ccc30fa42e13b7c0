import Mathlib.Algebra.Order.Field.Basic
import Mathlib.Tactic.FieldSimp
import Mathlib.Tactic.NormNum
import Redeclare.Proofs.Grammar

/-!
# Numbers and the grammar

A number is taken exactly when the grammar derives it, up to where no number could go on. The reader moves the point
behind the digits of the fraction and lowers the exponent by their number, which denotes the same decimal; the double
that it makes is the one to which this decimal rounds.
-/

namespace Redeclare.Grammar

open Json Redeclare.Digits

/-- What may stand behind a value: a blank, a comma, a closing bracket or brace, or nothing. -/
def Delimited (rest : List Char) : Prop := ∀ c ∈ rest.head?, isBlank c = true ∨ c = ',' ∨ c = ']' ∨ c = '\x7d'

section
variable {rest : List Char}

/-- No number goes on behind a value. -/
theorem Delimited.cases (h : Delimited rest) :
    rest = [] ∨ ∃ c tail, rest = c :: tail ∧ c.isDigit = false ∧ c ≠ '.' ∧ ¬(c = 'e' ∨ c = 'E') := by
  cases rest with
  | nil => exact .inl rfl
  | cons c tail =>
    refine .inr ⟨c, tail, rfl, ?_⟩
    have hc := h c rfl
    simp only [isBlank, Bool.or_eq_true, beq_iff_eq, or_assoc] at hc
    rcases hc with rfl | rfl | rfl | rfl | rfl | rfl | rfl <;> decide

theorem Delimited.noDigit (h : Delimited rest) : NoDigit rest := by
  rcases h.cases with rfl | ⟨c, tail, rfl, hdigit, -, -⟩
  · exact nofun
  · exact noDigit_cons hdigit

theorem Delimited.takeFraction? (h : Delimited rest) : takeFraction? rest = none := by
  rcases h.cases with rfl | ⟨c, tail, rfl, -, hpoint, -⟩
  · rfl
  · simp [Json.takeFraction?, hpoint]

theorem Delimited.takeExponent? (h : Delimited rest) : takeExponent? rest = none := by
  rcases h.cases with rfl | ⟨c, tail, rfl, -, -, hexponent⟩
  · rfl
  · exact takeExponent?_of_ne hexponent

end

/-! ## Digits -/

theorem isDigit_of_mem_frontDigits {cs : List Char} : ∀ c ∈ frontDigits cs, c.isDigit = true :=
  fun _ hc => List.mem_takeWhile_imp hc

theorem frontDigits_append_afterDigits (cs : List Char) : frontDigits cs ++ afterDigits cs = cs :=
  List.takeWhile_append_dropWhile

/-- The whole digits of a number are taken where no digit stands behind them. -/
theorem Whole.takeWhole? {ds rest : List Char} (h : Whole ds) (hr : NoDigit rest) :
    takeWhole? (ds ++ rest) = some (ds, rest) := by
  obtain ⟨⟨hne, hd⟩, hzero⟩ := h
  cases ds with
  | nil => exact absurd rfl hne
  | cons c ds =>
    by_cases h0 : c = '0'
    · subst h0
      rw [hzero rfl]
      exact takeWhole?_zero rest
    · exact takeWhole?_append (hd c List.mem_cons_self) h0 (fun d h => hd d (List.mem_cons_of_mem c h)) hr

theorem whole_of_takeWhole? {cs whole rest : List Char} (h : takeWhole? cs = some (whole, rest)) :
    cs = whole ++ rest ∧ Whole whole := by
  cases cs with
  | nil => cases h
  | cons c cs =>
    rw [Json.takeWhole?] at h
    split_ifs at h with h0 hd
    · cases h
      exact ⟨by rw [h0]; rfl, ⟨List.cons_ne_nil _ _, isDigit_of_mem_zero⟩, fun _ => rfl⟩
    · cases h
      refine ⟨by rw [List.cons_append, frontDigits_append_afterDigits], ⟨List.cons_ne_nil _ _, ?_⟩, ?_⟩
      · intro d hmem
        rcases List.mem_cons.mp hmem with rfl | hmem
        · exact hd
        · exact isDigit_of_mem_frontDigits d hmem
      · intro hhead
        exact absurd (Option.some.inj hhead) h0

/-! ## Fractions -/

theorem Fraction.eq_nil_iff {fraction fs : List Char} (h : Fraction fraction fs) : fraction = [] ↔ fs = [] := by
  cases h with
  | missing => exact Iff.rfl
  | point hd => exact iff_of_false (List.cons_ne_nil _ _) hd.1

/-- A fraction, or its absence, is taken as it is derived. -/
theorem exists_fraction_of_take {cs fs rest : List Char} (h : (takeFraction? cs).getD ([], cs) = (fs, rest)) :
    ∃ fraction, cs = fraction ++ rest ∧ Fraction fraction fs := by
  cases htake : takeFraction? cs with
  | none =>
    rw [htake] at h
    cases h
    exact ⟨[], rfl, .missing⟩
  | some p =>
    rw [htake] at h
    cases h
    unfold Json.takeFraction? at htake
    split at htake
    · rename_i tail
      split_ifs at htake with hne
      cases htake
      refine ⟨'.' :: frontDigits tail, ?_, .point ⟨hne, isDigit_of_mem_frontDigits⟩⟩
      rw [List.cons_append, frontDigits_append_afterDigits]
    · cases htake

theorem Fraction.take {fraction fs rest : List Char} (h : Fraction fraction fs) (hr : NoDigit rest)
    (hnone : takeFraction? rest = none) :
    (takeFraction? (fraction ++ rest)).getD ([], fraction ++ rest) = (fs, rest) := by
  cases h with
  | missing => simp [hnone]
  | point hd => rw [takeFraction?_append hd.1 hd.2 hr, Option.getD_some]

/-! ## Exponents -/

theorem exists_digits_of_exponentDigits? {negative : Bool} {cs rest : List Char} {n : Int}
    (h : exponentDigits? negative cs = some (n, rest)) :
    ∃ ds, cs = ds ++ rest ∧ Digits ds ∧ n = if negative then -(digitsValue ds : Int) else digitsValue ds := by
  unfold exponentDigits? at h
  split at h
  · cases h
  · rename_i hne
    cases h
    exact ⟨frontDigits cs, (frontDigits_append_afterDigits cs).symm, ⟨hne, isDigit_of_mem_frontDigits⟩, rfl⟩

theorem exponentDigits?_append (negative : Bool) {ds rest : List Char} (hd : Digits ds) (hr : NoDigit rest) :
    exponentDigits? negative (ds ++ rest) =
      some (if negative then -(digitsValue ds : Int) else digitsValue ds, rest) := by
  rw [exponentDigits?, frontDigits_append hd.2 hr, afterDigits_append hd.2 hr, if_neg hd.1]

/-- An exponent is taken as it is derived. -/
theorem exists_exponent_of_take {cs rest : List Char} {n : Int} (h : takeExponent? cs = some (n, rest)) :
    ∃ exponent, cs = exponent ++ rest ∧ exponent ≠ [] ∧ Exponent exponent n := by
  cases cs with
  | nil => cases h
  | cons c tail =>
    by_cases hc : c = 'e' ∨ c = 'E'
    · by_cases hminus : tail.head? = some '-'
      · obtain ⟨body, rfl⟩ := List.head?_eq_some_iff.mp hminus
        rw [takeExponent?_minus hc] at h
        obtain ⟨ds, rfl, hd, rfl⟩ := exists_digits_of_exponentDigits? h
        exact ⟨c :: '-' :: ds, rfl, List.cons_ne_nil _ _, .minus hc hd⟩
      by_cases hplus : tail.head? = some '+'
      · obtain ⟨body, rfl⟩ := List.head?_eq_some_iff.mp hplus
        rw [takeExponent?_plus hc] at h
        obtain ⟨ds, rfl, hd, rfl⟩ := exists_digits_of_exponentDigits? h
        exact ⟨c :: '+' :: ds, rfl, List.cons_ne_nil _ _, .plus hc hd⟩
      · rw [takeExponent?_plain hc hminus hplus] at h
        obtain ⟨ds, rfl, hd, rfl⟩ := exists_digits_of_exponentDigits? h
        exact ⟨c :: ds, rfl, List.cons_ne_nil _ _, .plain hc hd⟩
    · rw [takeExponent?_of_ne hc] at h
      cases h

theorem head?_append_of_digits {ds rest : List Char} (hd : Digits ds) {c : Char} (hc : c.isDigit = false) :
    (ds ++ rest).head? ≠ some c := by
  cases ds with
  | nil => exact absurd rfl hd.1
  | cons d ds =>
    intro h
    have hdigit := hd.2 d List.mem_cons_self
    rw [List.cons_append, List.head?_cons, Option.some.injEq] at h
    rw [h, hc] at hdigit
    cases hdigit

theorem Exponent.take {exponent rest : List Char} {n : Int} (h : Exponent exponent n) (hr : Delimited rest) :
    takeExponent? (exponent ++ rest) = if exponent = [] then none else some (n, rest) := by
  cases h with
  | missing => exact hr.takeExponent?
  | plain hc hd =>
    rw [List.cons_append, takeExponent?_plain hc (head?_append_of_digits hd rfl) (head?_append_of_digits hd rfl),
      exponentDigits?_append false hd hr.noDigit]
    rfl
  | plus hc hd =>
    rw [List.cons_append, List.cons_append, takeExponent?_plus hc, exponentDigits?_append false hd hr.noDigit]
    rfl
  | minus hc hd =>
    rw [List.cons_append, List.cons_append, takeExponent?_minus hc, exponentDigits?_append true hd hr.noDigit]
    rfl

/-- An exponent, or what stands behind a number, is no fraction and goes on with no digit. -/
theorem Exponent.noFraction {exponent rest : List Char} {n : Int} (h : Exponent exponent n) (hr : Delimited rest) :
    NoDigit (exponent ++ rest) ∧ takeFraction? (exponent ++ rest) = none := by
  have hletter : ∀ {c : Char} {tail : List Char}, c = 'e' ∨ c = 'E' →
      NoDigit (c :: tail) ∧ takeFraction? (c :: tail) = none := by
    intro c tail hc
    rcases hc with rfl | rfl
    · exact ⟨noDigit_cons rfl, rfl⟩
    · exact ⟨noDigit_cons rfl, rfl⟩
  cases h with
  | missing => exact ⟨hr.noDigit, hr.takeFraction?⟩
  | plain hc hd => exact hletter hc
  | plus hc hd => exact hletter hc
  | minus hc hd => exact hletter hc

/-! ## Numbers -/

/-- A decimal whose point was moved behind the digits of its fraction. -/
theorem decimal_eq (whole fs : List Char) (n : Int) :
    (digitsValue (whole ++ fs) : ℚ) * 10 ^ (n - fs.length) =
      (digitsValue whole + digitsValue fs / 10 ^ fs.length) * 10 ^ n := by
  have hten : (10 : ℚ) ≠ 0 := by norm_num
  have hvalue : digitsValue (whole ++ fs) = digitsValue whole * 10 ^ fs.length + digitsValue fs := by
    simp only [digitsValue, Nat.ofDigitChars_append]
    rw [Nat.ofDigitChars_eq_ofDigitChars_zero, Nat.mul_comm]
  rw [hvalue, zpow_sub₀ hten, zpow_natCast]
  push_cast
  field_simp

/-- A number with a fraction or an exponent is read as the double that it rounds to. -/
theorem rounds_ofDecimal_append (negative : Bool) (whole fs : List Char) (n : Int) :
    Double.Rounds negative ((digitsValue whole + digitsValue fs / 10 ^ fs.length) * 10 ^ n)
      (.ofDecimal negative (digitsValue (whole ++ fs)) (n - fs.length)) := by
  rw [← decimal_eq]
  exact Double.rounds_ofDecimal negative _ _

/-- What is taken behind the whole digits makes a number with them. -/
theorem exists_number_of_takeRest {negative : Bool} {whole cs rest : List Char} {v : Json} (hwhole : Whole whole)
    (h : takeRest negative whole cs = .ok (v, rest)) :
    ∃ tail, cs = tail ++ rest ∧ Number (sign negative ++ whole ++ tail) v := by
  unfold takeRest at h
  obtain ⟨fs, left, hfraction⟩ : ∃ fs left, (takeFraction? cs).getD ([], cs) = (fs, left) := ⟨_, _, rfl⟩
  obtain ⟨fraction, rfl, hfs⟩ := exists_fraction_of_take hfraction
  rw [hfraction] at h
  dsimp only at h
  split at h
  · rename_i n left' hexponent
    obtain ⟨exponent, rfl, hne, hn⟩ := exists_exponent_of_take hexponent
    cases h
    refine ⟨fraction ++ exponent, by simp, ?_⟩
    have hparts : fraction ++ exponent ≠ [] := by simp [hne]
    have hnumber := Number.double negative hwhole hfs hn hparts (rounds_ofDecimal_append negative whole fs n)
    simpa using hnumber
  split at h
  · rename_i hempty
    split at h
    · cases h
    · rename_i hshort
      cases h
      refine ⟨fraction, rfl, ?_⟩
      rw [hfs.eq_nil_iff.mpr hempty, List.append_nil]
      exact .whole negative hwhole (Nat.le_of_not_lt hshort)
  · rename_i hne
    cases h
    refine ⟨fraction, rfl, ?_⟩
    have hparts : fraction ++ [] ≠ [] := by simpa [hfs.eq_nil_iff] using hne
    have hrounds := rounds_ofDecimal_append negative whole fs 0
    rw [zero_sub] at hrounds
    simpa using Number.double negative hwhole hfs .missing hparts hrounds

/-- What is taken as a number is derived as one. -/
theorem exists_number_of_takeNumber {cs rest : List Char} {v : Json} (h : takeNumber cs = .ok (v, rest)) :
    ∃ text, cs = text ++ rest ∧ Number text v := by
  obtain ⟨negative, body, hbody, whole, left, hwhole, hrest⟩ : ∃ negative body, cs = sign negative ++ body ∧
      ∃ whole left, takeWhole? body = some (whole, left) ∧ takeRest negative whole left = .ok (v, rest) := by
    by_cases hminus : cs.head? = some '-'
    · obtain ⟨body, rfl⟩ := List.head?_eq_some_iff.mp hminus
      rw [takeNumber_minus] at h
      split at h
      · rename_i whole left hwhole
        exact ⟨true, body, rfl, whole, left, hwhole, h⟩
      · cases h
    · rw [takeNumber_plain hminus] at h
      split at h
      · rename_i whole left hwhole
        exact ⟨false, cs, rfl, whole, left, hwhole, h⟩
      · cases h
  obtain ⟨rfl, hdigits⟩ := whole_of_takeWhole? hwhole
  obtain ⟨tail, rfl, hnumber⟩ := exists_number_of_takeRest hdigits hrest
  exact ⟨sign negative ++ whole ++ tail, by rw [hbody]; simp, hnumber⟩

/-- What is derived as a number is taken as one, up to where no number goes on. -/
theorem Number.takeNumber {text rest : List Char} {v : Json} (h : Number text v) (hr : Delimited rest) :
    Json.takeNumber (text ++ rest) = .ok (v, rest) := by
  cases h with
  | whole negative hwhole hshort =>
    rw [List.append_assoc, takeNumber_sign negative (hwhole.takeWhole? hr.noDigit)]
    simp [takeRest, hr.takeFraction?, hr.takeExponent?, Nat.not_lt.mpr hshort]
  | @double negative ds fraction fs exponent n x hwhole hfs hn hparts hrounds =>
    obtain ⟨hdigit, hnone⟩ := hn.noFraction hr
    have hnodigit : NoDigit (fraction ++ (exponent ++ rest)) := by
      cases hfs with
      | missing => exact hdigit
      | point _ => exact noDigit_cons rfl
    have hx : x = .ofDecimal negative (digitsValue (ds ++ fs)) (n - fs.length) :=
      hrounds.unique (rounds_ofDecimal_append negative ds fs n)
    rw [List.append_assoc, List.append_assoc, List.append_assoc,
      takeNumber_sign negative (hwhole.takeWhole? hnodigit), takeRest, hfs.take hdigit hnone]
    simp only [hn.take hr, hx]
    by_cases hexponent : exponent = []
    · subst hexponent
      have hne : fs ≠ [] := by simpa [hfs.eq_nil_iff] using hparts
      cases hn
      simp [hne]
    · simp [hexponent]

end Redeclare.Grammar

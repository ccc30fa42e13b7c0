import Redeclare.Json.Printer
import Redeclare.Proofs.Rounding

/-!
# Numbers in documents

A number that was written is read back: a whole number as itself, a finite double as itself, whichever layout its size
asks for. The names of infinity and of no number are refused. What stands behind a value in a written document is a
comma, the start of a line, or nothing, so that the number ends where it was made to end.
-/

namespace Redeclare.Json

open Digits

/-- What stands behind a value in a written document: a comma, the start of a line, or nothing. -/
def Ends (rest : List Char) : Prop := ∀ c ∈ rest.head?, c = ',' ∨ c = '\n'

theorem ends_nil : Ends [] := by
  intro c hc
  cases hc

theorem ends_comma (rest : List Char) : Ends (',' :: rest) := by
  intro c hc
  cases hc
  exact .inl rfl

theorem ends_newline (rest : List Char) : Ends ('\n' :: rest) := by
  intro c hc
  cases hc
  exact .inr rfl

theorem Ends.noDigit {rest : List Char} (h : Ends rest) : NoDigit rest := by
  intro c hc
  rcases h c hc with rfl | rfl <;> rfl

theorem Ends.takeFraction? {rest : List Char} (h : Ends rest) : takeFraction? rest = none := by
  cases rest with
  | nil => rfl
  | cons c rest => rcases h c rfl with rfl | rfl <;> rfl

theorem Ends.takeExponent? {rest : List Char} (h : Ends rest) : takeExponent? rest = none := by
  cases rest with
  | nil => rfl
  | cons c rest => rcases h c rfl with rfl | rfl <;> rfl

/-! ## The parts of a number -/

/-- A minus sign or nothing. -/
def sign (negative : Bool) : List Char := if negative then ['-'] else []

/-- A number that begins with a minus sign. -/
theorem takeNumber_minus (body : List Char) :
    takeNumber ('-' :: body) = match takeWhole? body with
      | some (whole, rest) => takeRest true whole rest
      | none => .error (.malformed .value ('-' :: body)) :=
  rfl

/-- A number that begins with anything else. -/
theorem takeNumber_plain {cs : List Char} (h : cs.head? ≠ some '-') :
    takeNumber cs = match takeWhole? cs with
      | some (whole, rest) => takeRest false whole rest
      | none => .error (.malformed .value cs) := by
  cases cs with
  | nil => rfl
  | cons c body =>
    have hc : c ≠ '-' := by simpa using h
    cases hwhole : takeWhole? (c :: body) with
    | none => simp [takeNumber, hc, hwhole]
    | some p => simp [takeNumber, hc, hwhole]

/-- A number is read by its sign, its whole digits and the rest. -/
theorem takeNumber_sign (negative : Bool) {body whole rest : List Char} (h : takeWhole? body = some (whole, rest)) :
    takeNumber (sign negative ++ body) = takeRest negative whole rest := by
  cases negative with
  | true =>
    show takeNumber ('-' :: body) = _
    rw [takeNumber_minus, h]
  | false =>
    show takeNumber body = _
    have hminus : body.head? ≠ some '-' := by
      intro hhead
      obtain ⟨tail, rfl⟩ := List.head?_eq_some_iff.mp hhead
      cases h
    rw [takeNumber_plain hminus, h]

/-- Whole digits with nothing behind them are a whole number. -/
theorem takeRest_whole (negative : Bool) {whole rest : List Char} (hd : whole.length ≤ maxDigits) (hr : Ends rest) :
    takeRest negative whole rest =
      .ok (.int (if negative then -(digitsValue whole : Int) else digitsValue whole), rest) := by
  simp [takeRest, hr.takeFraction?, hr.takeExponent?, Nat.not_lt.mpr hd]

/-- Whole digits with a fraction behind them are a double. -/
theorem takeRest_fraction (negative : Bool) (whole : List Char) {ds rest : List Char} (hne : ds ≠ [])
    (hd : ∀ c ∈ ds, c.isDigit = true) (hr : Ends rest) :
    takeRest negative whole ('.' :: ds ++ rest) =
      .ok (.double (.ofDecimal negative (digitsValue (whole ++ ds)) (-(ds.length : Int))), rest) := by
  simp only [takeRest, takeFraction?_append hne hd hr.noDigit, Option.getD_some, hr.takeExponent?, hne, if_false]

/-- An exponent that was written is read back. -/
theorem takeExponent?_exponentText (layout : NumberLayout) (n : Int) {rest : List Char} (hr : Ends rest) :
    takeExponent? ('e' :: layout.exponentText n ++ rest) = some (n, rest) := by
  obtain ⟨k, hk⟩ : ∃ k, k = layout.exponentWidth - (Nat.toDigits 10 n.natAbs).length := ⟨_, rfl⟩
  obtain ⟨es, hes⟩ : ∃ es, es = List.replicate k '0' ++ Nat.toDigits 10 n.natAbs := ⟨_, rfl⟩
  have hd : ∀ c ∈ es, c.isDigit = true := by
    intro c hc
    rw [hes, List.mem_append] at hc
    rcases hc with hc | hc
    · rw [List.eq_of_mem_replicate hc]
      rfl
    · exact isDigit_of_mem hc
  have hne : es ≠ [] := by
    rw [hes]
    simp
  have hvalue : digitsValue es = n.natAbs := by
    rw [hes, digitsValue_zeros_append, digitsValue_toDigits]
  have htext : 'e' :: layout.exponentText n ++ rest = 'e' :: (if n < 0 then '-' else '+') :: (es ++ rest) := by
    simp [NumberLayout.exponentText, hes, hk]
  rw [htext]
  by_cases hn : n < 0
  · rw [if_pos hn]
    simp only [takeExponent?, frontDigits_append hd hr.noDigit, afterDigits_append hd hr.noDigit, hne, hvalue,
      true_or, if_true, if_false]
    have : -(n.natAbs : Int) = n := by omega
    rw [this]
  · rw [if_neg hn]
    simp only [takeExponent?, frontDigits_append hd hr.noDigit, afterDigits_append hd hr.noDigit, hne, hvalue,
      true_or, if_true, if_false]
    have : (n.natAbs : Int) = n := by omega
    simp [this]

/-- Whole digits with a fraction or none and an exponent behind them are a double. -/
theorem takeRest_exponent (negative : Bool) (whole : List Char) (layout : NumberLayout) {fraction rest : List Char}
    (n : Int) (hd : ∀ c ∈ fraction, c.isDigit = true) (hr : Ends rest) :
    takeRest negative whole
        ((if fraction = [] then [] else '.' :: fraction) ++ ('e' :: layout.exponentText n) ++ rest) =
      .ok (.double (.ofDecimal negative (digitsValue (whole ++ fraction)) (n - fraction.length)), rest) := by
  have he := takeExponent?_exponentText layout n hr
  obtain ⟨text, htext⟩ : ∃ text, text = layout.exponentText n ++ rest := ⟨_, rfl⟩
  rw [List.cons_append, ← htext] at he
  by_cases hf : fraction = []
  · subst hf
    have hnone : takeFraction? ('e' :: text) = none := rfl
    simp only [if_true, List.nil_append, List.cons_append, ← htext, takeRest, hnone, Option.getD_none, he]
  · have hnd : NoDigit ('e' :: text) := noDigit_cons rfl
    have hsome := takeFraction?_append hf hd hnd
    rw [List.cons_append] at hsome
    simp only [hf, if_false, List.cons_append, List.append_assoc, ← htext, takeRest, hsome, Option.getD_some, he]

/-! ## Doubles -/

/-- A decimal with zeros more and an exponent less by their number is the same double. -/
theorem ofDecimal_mul_pow (negative : Bool) (digits k : Nat) (exponent : Int) :
    Double.ofDecimal negative (digits * 10 ^ k) (exponent - k) = Double.ofDecimal negative digits exponent := by
  rw [Double.ofDecimal, Magnitude.ofDecimal?_mul_pow, ← Double.ofDecimal]

/-- A decimal below one is written with zeros behind the point. -/
theorem takeNumber_belowOne (negative : Bool) (k : Nat) {ds rest : List Char} (hne : ds ≠ [])
    (hd : ∀ d ∈ ds, d.isDigit = true) (hr : Ends rest) :
    takeNumber (sign negative ++ ('0' :: '.' :: List.replicate k '0' ++ ds) ++ rest) =
      .ok (.double (.ofDecimal negative (digitsValue ds) (-(k : Int) - ds.length)), rest) := by
  have hall : ∀ d ∈ List.replicate k '0' ++ ds, d.isDigit = true := by
    intro d hmem
    rcases List.mem_append.mp hmem with h | h
    · rw [List.eq_of_mem_replicate h]
      rfl
    · exact hd d h
  have hzero : List.replicate k '0' ++ ds ≠ [] := List.append_ne_nil_of_right_ne_nil _ hne
  have hvalue : digitsValue (['0'] ++ (List.replicate k '0' ++ ds)) = digitsValue ds := by
    exact digitsValue_zeros_append (k + 1) ds
  have hexp : -((List.replicate k '0' ++ ds).length : Int) = -(k : Int) - ds.length := by
    rw [List.length_append, List.length_replicate]
    omega
  have hfraction := takeRest_fraction negative ['0'] hzero hall hr
  rw [hvalue, hexp] at hfraction
  rw [List.append_assoc, ← hfraction]
  exact takeNumber_sign negative (takeWhole?_zero _)

/-- Digits on both sides of a point are read as the decimal of all of them. -/
theorem takeNumber_point (negative : Bool) {c : Char} {ws fs rest : List Char} (hc : c.isDigit = true) (h0 : c ≠ '0')
    (hw : ∀ d ∈ ws, d.isDigit = true) (hne : fs ≠ []) (hf : ∀ d ∈ fs, d.isDigit = true) (hr : Ends rest) :
    takeNumber (sign negative ++ (c :: ws ++ ('.' :: fs ++ rest))) =
      .ok (.double (.ofDecimal negative (digitsValue (c :: ws ++ fs)) (-(fs.length : Int))), rest) := by
  have hpoint : NoDigit ('.' :: fs ++ rest) := noDigit_cons rfl
  rw [takeNumber_sign negative (takeWhole?_append hc h0 hw hpoint)]
  exact takeRest_fraction negative (c :: ws) hne hf hr

/-- A decimal of middle size is written with its point in place, and with a zero on either side where no digit is. -/
theorem takeNumber_inPlace (negative : Bool) (front : Nat) {c : Char} {ds rest : List Char} (hc : c.isDigit = true)
    (h0 : c ≠ '0') (hd : ∀ d ∈ ds, d.isDigit = true) (hr : Ends rest) :
    takeNumber (sign negative ++ ((c :: ds).take (front + 1) ++ List.replicate (front + 1 - (c :: ds).length) '0' ++
        '.' :: (if (c :: ds).drop (front + 1) = [] then ['0'] else (c :: ds).drop (front + 1))) ++ rest) =
      .ok (.double (.ofDecimal negative (digitsValue (c :: ds)) ((front + 1 : Nat) - (c :: ds).length)), rest) := by
  rw [List.take_succ_cons, List.drop_succ_cons, List.length_cons, List.append_assoc, List.append_assoc,
    List.cons_append]
  by_cases hlong : ds.length ≤ front
  · -- every digit stands before the point: the zeros behind them make the decimal one of the same value
    rw [List.take_of_length_le hlong, List.drop_of_length_le hlong, if_pos rfl, Nat.add_sub_add_right]
    have hall : ∀ d ∈ ds ++ List.replicate (front - ds.length) '0', d.isDigit = true := by
      intro d hmem
      rcases List.mem_append.mp hmem with h | h
      · exact hd d h
      · rw [List.eq_of_mem_replicate h]
        rfl
    have hpoint := takeNumber_point negative hc h0 hall (List.cons_ne_nil '0' []) isDigit_of_mem_zero hr
    have hvalue : digitsValue (c :: (ds ++ List.replicate (front - ds.length) '0') ++ ['0']) =
        digitsValue (c :: ds) * 10 ^ (front - ds.length + 1) := by
      rw [← digitsValue_append_zeros, List.replicate_succ']
      simp
    have hexp : -((['0'].length : Nat) : Int) =
        ((front + 1 : Nat) : Int) - ((ds.length + 1 : Nat) : Int) - ((front - ds.length + 1 : Nat) : Int) := by
      simp only [List.length_singleton]
      omega
    rw [hvalue, hexp, ofDecimal_mul_pow] at hpoint
    exact hpoint
  · -- the digits behind the point are the fraction
    have hlt : front < ds.length := Nat.lt_of_not_le hlong
    have hne : ds.drop front ≠ [] := by
      rw [Ne, List.drop_eq_nil_iff]
      omega
    have hsub : front + 1 - (ds.length + 1) = 0 := by omega
    have htake : ∀ d ∈ ds.take front, d.isDigit = true := by
      intro d hmem
      exact hd d (List.mem_of_mem_take hmem)
    have hdrop : ∀ d ∈ ds.drop front, d.isDigit = true := by
      intro d hmem
      exact hd d (List.mem_of_mem_drop hmem)
    have hpoint := takeNumber_point negative hc h0 htake hne hdrop hr
    have hexp : -((ds.drop front).length : Int) = ((front + 1 : Nat) : Int) - ((ds.length + 1 : Nat) : Int) := by
      rw [List.length_drop]
      omega
    have hvalue : c :: ds.take front ++ ds.drop front = c :: ds := by
      rw [List.cons_append, List.take_append_drop]
    rw [hvalue, hexp] at hpoint
    rw [if_neg hne, hsub, List.replicate_zero, ← hpoint]
    simp

/-- Digits that were laid out, with the point `place` digits behind their front, are read as the decimal that they
are. -/
theorem takeNumber_place (negative : Bool) {c : Char} {ds rest : List Char} (place : Int) (hc : c.isDigit = true)
    (h0 : c ≠ '0') (hd : ∀ d ∈ ds, d.isDigit = true) (hr : Ends rest) :
    takeNumber (sign negative ++ NumberLayout.document.place (c :: ds) place ++ rest) =
      .ok (.double (.ofDecimal negative (digitsValue (c :: ds)) (place - (c :: ds).length)), rest) := by
  have hall : ∀ d ∈ c :: ds, d.isDigit = true := by
    intro d hmem
    rcases List.mem_cons.mp hmem with rfl | h
    · exact hc
    · exact hd d h
  unfold NumberLayout.place
  split
  · rename_i hsmall
    have hk : -(place.natAbs : Int) = place := by omega
    have h := takeNumber_belowOne negative place.natAbs (List.cons_ne_nil c ds) hall hr
    rwa [hk] at h
  split
  · rename_i hmiddle
    obtain ⟨front, hfront⟩ : ∃ front, place.toNat = front + 1 := ⟨place.toNat - 1, by omega⟩
    have hplace : ((front + 1 : Nat) : Int) = place := by omega
    have h := takeNumber_inPlace negative front hc h0 hd hr
    rw [hplace] at h
    rw [hfront]
    exact h
  · have hexponent := takeRest_exponent negative [c] NumberLayout.document (place - 1) hd hr
    have hexp : place - 1 - (ds.length : Int) = place - ((c :: ds).length : Nat) := by
      rw [List.length_cons]
      omega
    rw [hexp, List.cons_append, List.nil_append] at hexponent
    have hnd : NoDigit ((if ds = [] then [] else '.' :: ds) ++
        ('e' :: NumberLayout.document.exponentText (place - 1)) ++ rest) := by
      cases ds with
      | nil => exact noDigit_cons rfl
      | cons d ds => exact noDigit_cons rfl
    have hwhole := takeWhole?_append hc h0 (fun _ h => absurd h List.not_mem_nil) hnd
    rw [← hexponent, ← takeNumber_sign negative hwhole]
    cases ds with
    | nil => simp
    | cons d ds => simp

/-- The text of a size other than zero is its trimmed digits, laid out. -/
theorem magnitude_eq_place {x : Magnitude} (h : x ≠ .zero) :
    ∃ c ds, ∃ k : Nat, ∃ exponent : Int,
      NumberLayout.document.magnitude x = NumberLayout.document.place (c :: ds) exponent ∧
      c.isDigit = true ∧ c ≠ '0' ∧ (∀ d ∈ ds, d.isDigit = true) ∧
      x.shortest.digits = digitsValue (c :: ds) * 10 ^ k ∧
      x.shortest.exponent = exponent - (c :: ds).length - k := by
  have hm : x.mantissa ≠ 0 := by
    intro h0
    exact h (x.eq_zero_of_units (by rw [Magnitude.units, h0, Nat.zero_mul]))
  have hdigits : x.shortest.digits ≠ 0 := by
    intro h0
    have hread := x.ofDecimal?_shortest
    rw [h0, Magnitude.ofDecimal?_zero] at hread
    exact h (Option.some.inj hread).symm
  obtain ⟨c, cs, hcs, hc0⟩ := exists_cons_toDigits hdigits
  obtain ⟨k, hk⟩ := exists_trimZeros (Nat.toDigits 10 x.shortest.digits)
  obtain ⟨ds, hds, hsub⟩ := trimZeros_cons cs hc0
  have hall : ∀ d ∈ c :: cs, d.isDigit = true := by
    intro d hd
    rw [← hcs] at hd
    exact isDigit_of_mem hd
  rw [hcs, hds] at hk
  refine ⟨c, ds, k, (Nat.toDigits 10 x.shortest.digits).length + x.shortest.exponent, ?_,
    hall c List.mem_cons_self, hc0, fun d hd => hall d (List.mem_cons_of_mem c (hsub d hd)), ?_, ?_⟩
  · rw [NumberLayout.magnitude, if_neg hm]
    simp only [hcs, hds]
  · rw [← digitsValue_append_zeros, ← hk, ← hcs, digitsValue_toDigits]
  · have hlen := congrArg List.length hk
    rw [List.length_append, List.length_replicate] at hlen
    rw [hcs, hlen]
    omega

/-- A finite double that was written is read back. -/
theorem takeNumber_double (negative : Bool) (x : Magnitude) {rest : List Char} (hr : Ends rest) :
    takeNumber (NumberLayout.document.double (.finite negative x) ++ rest) =
      .ok (.double (.finite negative x), rest) := by
  show takeNumber (sign negative ++ NumberLayout.document.magnitude x ++ rest) = _
  by_cases hx : x = .zero
  · have hfraction := takeRest_fraction negative ['0'] (List.cons_ne_nil '0' []) isDigit_of_mem_zero hr
    have hwhole := takeWhole?_zero ('.' :: ['0'] ++ rest)
    have hzero : Double.ofDecimal negative (digitsValue (['0'] ++ ['0'])) (-((['0'].length : Nat) : Int)) =
        .finite negative x := by
      rw [hx]
      rfl
    rw [hzero] at hfraction
    rw [← hfraction, ← takeNumber_sign negative hwhole, hx]
    simp [NumberLayout.magnitude, Magnitude.zero]
  · obtain ⟨c, ds, k, exponent, htext, hc, hc0, hd, hdigits, hexp⟩ := magnitude_eq_place hx
    have hread := x.ofDecimal?_shortest
    rw [hdigits, hexp, Magnitude.ofDecimal?_mul_pow] at hread
    rw [htext, takeNumber_place negative exponent hc hc0 hd hr, Double.ofDecimal, hread]

/-! ## Whole numbers -/

/-- The text of a whole number: its sign and its digits. -/
theorem ofInt_eq (n : Int) : Text.ofInt n = Text.ofChars (sign (decide (n < 0)) ++ Nat.toDigits 10 n.natAbs) := by
  cases n with
  | ofNat n => rfl
  | negSucc n => simp [sign, Text.ofInt, Text.ofNat, Int.negSucc_lt_zero]

/-- A whole number that was written is read back. -/
theorem takeNumber_int {n : Int} {rest : List Char} (hd : (Nat.toDigits 10 n.natAbs).length ≤ maxDigits)
    (hr : Ends rest) :
    takeNumber (sign (decide (n < 0)) ++ Nat.toDigits 10 n.natAbs ++ rest) = .ok (.int n, rest) := by
  have hwhole : takeWhole? (Nat.toDigits 10 n.natAbs ++ rest) = some (Nat.toDigits 10 n.natAbs, rest) := by
    by_cases h0 : n.natAbs = 0
    · rw [h0, Nat.toDigits_zero]
      exact takeWhole?_zero rest
    · obtain ⟨c, ds, hds, hc⟩ := exists_cons_toDigits h0
      have hall : ∀ d ∈ c :: ds, d.isDigit = true := by
        intro d hd
        rw [← hds] at hd
        exact isDigit_of_mem hd
      rw [hds]
      exact takeWhole?_append (hall c List.mem_cons_self) hc (fun d h => hall d (List.mem_cons_of_mem c h)) hr.noDigit
  rw [List.append_assoc, takeNumber_sign _ hwhole, takeRest_whole _ hd hr, digitsValue_toDigits]
  have hn : (if decide (n < 0) = true then -(n.natAbs : Int) else n.natAbs) = n := by
    split
    · rename_i h
      rw [decide_eq_true_iff] at h
      omega
    · rename_i h
      rw [decide_eq_true_iff] at h
      omega
  rw [hn]

end Redeclare.Json

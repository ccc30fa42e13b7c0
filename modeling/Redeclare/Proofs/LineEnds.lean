import Redeclare.Proofs.Numbers
import Redeclare.Proofs.Steps

/-!
# Line ends

Before a text is read, every line end in it is made a line feed. For the reader this plays no part: it takes the same
from both texts, and what is left of one is what is left of the other with its line ends made alike. A line end is a
blank wherever it may stand, and where it may not, a line feed is refused as a carriage return is.
-/

namespace Redeclare.Lines

/-- Everything but a carriage return is kept. -/
theorem unify_cons {c : Char} (h : c ≠ '\r') (cs : List Char) : unify (c :: cs) = c :: unify cs := by
  rw [unify]
  · rintro _ rfl
    exact absurd rfl h
  · exact h

theorem unify_append {word : List Char} (h : '\r' ∉ word) (cs : List Char) : unify (word ++ cs) = word ++ unify cs := by
  induction word with
  | nil => rfl
  | cons c word ih =>
    rw [List.mem_cons, not_or] at h
    rw [List.cons_append, unify_cons (Ne.symm h.1), ih h.2, List.cons_append]

/-- Without carriage returns all line ends are alike. -/
theorem unify_eq_self {cs : List Char} (h : '\r' ∉ cs) : unify cs = cs := by
  have happend := unify_append h []
  rwa [List.append_nil, unify, List.append_nil] at happend

/-- A carriage return becomes a line feed. -/
theorem exists_unify_return (cs : List Char) : ∃ rest, unify ('\r' :: cs) = '\n' :: rest := by
  rw [unify.eq_def]
  split
  · exact ⟨_, rfl⟩
  · exact ⟨_, rfl⟩
  · rename_i _ _ hreturn heq
    cases heq
    exact absurd rfl hreturn
  · rename_i heq
    cases heq

/-- How a text may begin: not at all, with a character that is kept, or with a carriage return. -/
theorem unify_cases (cs : List Char) :
    cs = [] ∨ (∃ c rest, c ≠ '\r' ∧ cs = c :: rest ∧ unify cs = c :: unify rest) ∨
      ∃ rest left, cs = '\r' :: rest ∧ unify cs = '\n' :: left := by
  cases cs with
  | nil => exact .inl rfl
  | cons c rest =>
    by_cases hc : c = '\r'
    · subst hc
      obtain ⟨left, hleft⟩ := exists_unify_return rest
      exact .inr (.inr ⟨rest, left, rfl, hleft⟩)
    · exact .inr (.inl ⟨c, rest, hc, rfl, unify_cons hc rest⟩)

/-- Nothing but line feeds is made. -/
theorem eq_cons_of_unify {c : Char} {cs left : List Char} (hc : c ≠ '\n') (h : unify cs = c :: left) :
    ∃ rest, cs = c :: rest ∧ unify rest = left := by
  rcases unify_cases cs with rfl | ⟨d, rest, -, rfl, heq⟩ | ⟨rest, left', rfl, heq⟩
  · cases h
  · rw [heq] at h
    cases h
    exact ⟨rest, rfl, rfl⟩
  · rw [heq] at h
    cases h
    exact absurd rfl hc

end Redeclare.Lines

namespace Redeclare.Json

open Digits
open Lines (unify)

/-- What was taken, with the line ends made alike in what is left. -/
def Taken.unified {α : Type} : Taken α → Taken α
  | .ok (a, rest) => .ok (a, unify rest)
  | .error (.malformed problem rest) => .error (.malformed problem (unify rest))
  | .error (.constant name) => .error (.constant name)
  | .error (.tooManyDigits count) => .error (.tooManyDigits count)

@[simp] theorem unified_ok {α : Type} (a : α) (rest : List Char) :
    Taken.unified (.ok (a, rest)) = .ok (a, unify rest) :=
  rfl

theorem as_unified {α β : Type} (f : α → β) (t : Taken α) : t.unified.as f = (t.as f).unified := by
  rcases t with (⟨_, _⟩ | _ | _) | ⟨_, _⟩ <;> rfl

theorem attachTo_unified (p : Point) (t : Taken Text) : attachTo p t.unified = (attachTo p t).unified := by
  rcases t with (⟨_, _⟩ | _ | _) | ⟨_, _⟩ <;> rfl

/-! ## Blanks -/

theorem skipBlanks_unify (cs : List Char) : skipBlanks (unify cs) = unify (skipBlanks cs) := by
  fun_induction unify cs with
  | case1 rest ih =>
    show skipBlanks (unify rest) = unify (skipBlanks rest)
    exact ih
  | case2 rest h ih =>
    show skipBlanks (unify rest) = unify (skipBlanks rest)
    exact ih
  | case3 c rest _ hc ih =>
    unfold skipBlanks at ih ⊢
    by_cases hblank : isBlank c = true
    · rw [List.dropWhile_cons_of_pos hblank, List.dropWhile_cons_of_pos hblank, ih]
    · rw [List.dropWhile_cons_of_neg hblank, List.dropWhile_cons_of_neg hblank, Lines.unify_cons hc]
  | case4 => rfl

/-! ## Strings -/

theorem hexValue4?_eq_some {a b c d : Char} {n : Nat} (h : hexValue4? a b c d = some n) :
    ∀ x ∈ [a, b, c, d], hexValue? x ≠ none := by
  unfold hexValue4? at h
  split at h
  · rename_i ha hb hc hd
    simp [ha, hb, hc, hd]
  · cases h

/-- Four hexadecimal digits hold no line end. -/
theorem ne_of_hexValue4? {a b c d : Char} {n : Nat} (h : hexValue4? a b c d = some n) :
    ∀ x ∈ [a, b, c, d], x ≠ '\n' ∧ x ≠ '\r' := by
  intro x hx
  have hsome := hexValue4?_eq_some h x hx
  constructor
  · rintro rfl
    exact hsome rfl
  · rintro rfl
    exact hsome rfl

/-- Four hexadecimal digits stand in a text if they stand in it with its line ends made alike. -/
theorem exists_of_hexValue4?_of_unify {cs rest : List Char} {a b c d : Char} {n : Nat}
    (h : unify cs = a :: b :: c :: d :: rest) (hn : hexValue4? a b c d = some n) :
    ∃ left, cs = a :: b :: c :: d :: left ∧ unify left = rest := by
  have hne := ne_of_hexValue4? hn
  obtain ⟨cs₁, rfl, h₁⟩ := Lines.eq_cons_of_unify (hne a (by simp)).1 h
  obtain ⟨cs₂, rfl, h₂⟩ := Lines.eq_cons_of_unify (hne b (by simp)).1 h₁
  obtain ⟨cs₃, rfl, h₃⟩ := Lines.eq_cons_of_unify (hne c (by simp)).1 h₂
  obtain ⟨cs₄, rfl, h₄⟩ := Lines.eq_cons_of_unify (hne d (by simp)).1 h₃
  exact ⟨cs₄, rfl, h₄⟩

/-- A code that is refused is refused with its line ends made alike. -/
theorem takeString_unify_of_no_code (opening : List Char) {cs : List Char}
    (h : ∀ a b c d rest n, cs = a :: b :: c :: d :: rest → hexValue4? a b c d = some n → rest = []) :
    takeString opening (unify ('\\' :: 'u' :: cs)) = .error (.malformed .unicodeEscape (unify ('u' :: cs))) := by
  rw [Lines.unify_cons (by decide), Lines.unify_cons (by decide)]
  apply takeString_of_no_code
  intro a b c d rest n hcs hn
  obtain ⟨left, hleft, rfl⟩ := exists_of_hexValue4?_of_unify hcs hn
  rw [h a b c d left n hleft hn]
  rfl

theorem takeString_unify (opening cs : List Char) :
    takeString (unify opening) (unify cs) = (takeString opening cs).unified := by
  fun_induction takeString opening cs with
  | case1 => rfl
  | case2 rest =>
    rw [Lines.unify_cons (by decide), takeString]
    rfl
  | case3 => rfl
  | case4 a b c d rest n hn hempty =>
    apply takeString_unify_of_no_code
    rintro _ _ _ _ _ _ heq -
    cases heq
    exact List.isEmpty_iff.mp hempty
  | case5 a b c d rest n hn hne ih =>
    have hreturn : '\r' ∉ ['\\', 'u', a, b, c, d] := by
      intro hmem
      simp only [List.mem_cons, Char.reduceEq, false_or] at hmem
      exact (ne_of_hexValue4? hn '\r' (by simpa using hmem)).2 rfl
    have hleft : unify rest ≠ [] := by
      rcases Lines.unify_cases rest with rfl | ⟨c, left, -, -, heq⟩ | ⟨_, left, -, heq⟩
      · exact absurd rfl hne
      · simp [heq]
      · simp [heq]
    have happend := Lines.unify_append hreturn rest
    simp only [List.cons_append, List.nil_append] at happend
    rw [happend, takeString_code _ hn hleft, ih, attachTo_unified]
  | case6 a b c d rest hn =>
    apply takeString_unify_of_no_code
    rintro _ _ _ _ _ _ heq hsome
    cases heq
    rw [hn] at hsome
    cases hsome
  | case7 digits hfour =>
    apply takeString_unify_of_no_code
    rintro a b c d rest _ heq -
    exact absurd heq (hfour a b c d rest)
  | case8 c rest hu d hd ih =>
    have hc : c ≠ '\r' := by
      rintro rfl
      cases hd
    rw [Lines.unify_cons (by decide), Lines.unify_cons hc, takeString_letter _ hd, ih, attachTo_unified]
  | case9 c rest hu hd =>
    rcases Lines.unify_cases (c :: rest) with h | ⟨_, _, -, h, heq⟩ | ⟨_, left, h, heq⟩
    · cases h
    · cases h
      rw [Taken.unified, Lines.unify_cons (by decide), heq, takeString_of_unescape?_eq_none _ hu hd]
    · cases h
      rw [Taken.unified, Lines.unify_cons (by decide), heq, takeString_of_unescape?_eq_none _ (by decide) rfl]
  | case10 c rest _ _ _ _ hsmall =>
    rcases Lines.unify_cases (c :: rest) with h | ⟨_, _, -, h, heq⟩ | ⟨_, left, h, heq⟩
    · cases h
    · cases h
      rw [Taken.unified, heq, takeString_control _ hsmall]
    · cases h
      rw [Taken.unified, heq, takeString_control _ (by decide)]
  | case11 c rest hquote _ _ hback hlarge ih =>
    have hc : c ≠ '\r' := by
      rintro rfl
      exact hlarge (by decide)
    have hback' : c ≠ '\\' := by
      rintro rfl
      cases rest with
      | nil => contradiction
      | cons d rest => exact hback d rest rfl rfl
    rw [Lines.unify_cons hc, takeString_char _ hlarge hquote hback', ih, attachTo_unified]

/-! ## Numbers and words -/

theorem frontDigits_unify (cs : List Char) : frontDigits (unify cs) = frontDigits cs := by
  induction cs with
  | nil => rfl
  | cons c cs ih =>
    unfold frontDigits at ih ⊢
    by_cases hd : c.isDigit = true
    · have hc : c ≠ '\r' := by
        rintro rfl
        cases hd
      rw [Lines.unify_cons hc, List.takeWhile_cons_of_pos hd, List.takeWhile_cons_of_pos hd, ih]
    · rw [List.takeWhile_cons_of_neg hd]
      rcases Lines.unify_cases (c :: cs) with h | ⟨_, _, -, h, heq⟩ | ⟨_, left, h, heq⟩
      · cases h
      · cases h
        rw [heq, List.takeWhile_cons_of_neg hd]
      · rw [heq]
        rfl

theorem afterDigits_unify (cs : List Char) : afterDigits (unify cs) = unify (afterDigits cs) := by
  induction cs with
  | nil => rfl
  | cons c cs ih =>
    unfold afterDigits at ih ⊢
    by_cases hd : c.isDigit = true
    · have hc : c ≠ '\r' := by
        rintro rfl
        cases hd
      rw [Lines.unify_cons hc, List.dropWhile_cons_of_pos hd, List.dropWhile_cons_of_pos hd, ih]
    · rw [List.dropWhile_cons_of_neg hd]
      rcases Lines.unify_cases (c :: cs) with h | ⟨_, _, -, h, heq⟩ | ⟨_, left, h, heq⟩
      · cases h
      · cases h
        rw [heq, List.dropWhile_cons_of_neg hd]
      · rw [heq]
        rfl

theorem takeWhole?_unify (cs : List Char) :
    takeWhole? (unify cs) = (takeWhole? cs).map fun (whole, rest) => (whole, unify rest) := by
  rcases Lines.unify_cases cs with rfl | ⟨c, rest, -, rfl, heq⟩ | ⟨rest, left, rfl, heq⟩
  · rfl
  · rw [heq, takeWhole?, takeWhole?, frontDigits_unify, afterDigits_unify]
    split_ifs <;> rfl
  · rw [heq]
    rfl

theorem takeFraction?_unify (cs : List Char) :
    takeFraction? (unify cs) = (takeFraction? cs).map fun (fraction, rest) => (fraction, unify rest) := by
  rcases Lines.unify_cases cs with rfl | ⟨c, rest, -, rfl, heq⟩ | ⟨rest, left, rfl, heq⟩
  · rfl
  · rw [heq]
    by_cases hpoint : c = '.'
    · subst hpoint
      rw [takeFraction?, takeFraction?, frontDigits_unify, afterDigits_unify]
      split_ifs <;> rfl
    · simp [takeFraction?, hpoint]
  · rw [heq]
    rfl

theorem exponentDigits?_unify (negative : Bool) (body : List Char) :
    exponentDigits? negative (unify body) =
      (exponentDigits? negative body).map fun (exponent, rest) => (exponent, unify rest) := by
  unfold exponentDigits?
  rw [frontDigits_unify, afterDigits_unify]
  split_ifs <;> rfl

theorem takeExponent?_unify (cs : List Char) :
    takeExponent? (unify cs) = (takeExponent? cs).map fun (exponent, rest) => (exponent, unify rest) := by
  rcases Lines.unify_cases cs with rfl | ⟨c, rest, -, rfl, heq⟩ | ⟨rest, left, rfl, heq⟩
  · rfl
  · rw [heq]
    by_cases hc : c = 'e' ∨ c = 'E'
    · by_cases hminus : rest.head? = some '-'
      · obtain ⟨body, rfl⟩ := List.head?_eq_some_iff.mp hminus
        rw [Lines.unify_cons (by decide), takeExponent?_minus hc, takeExponent?_minus hc, exponentDigits?_unify]
      by_cases hplus : rest.head? = some '+'
      · obtain ⟨body, rfl⟩ := List.head?_eq_some_iff.mp hplus
        rw [Lines.unify_cons (by decide), takeExponent?_plus hc, takeExponent?_plus hc, exponentDigits?_unify]
      · have hhead : ∀ d, d ≠ '\n' → rest.head? ≠ some d → (unify rest).head? ≠ some d := by
          intro d hd hne h
          obtain ⟨left, hleft⟩ := List.head?_eq_some_iff.mp h
          obtain ⟨tail, rfl, -⟩ := Lines.eq_cons_of_unify hd hleft
          exact hne rfl
        rw [takeExponent?_plain hc hminus hplus,
          takeExponent?_plain hc (hhead _ (by decide) hminus) (hhead _ (by decide) hplus), exponentDigits?_unify]
    · rw [takeExponent?_of_ne hc, takeExponent?_of_ne hc]
      rfl
  · rw [heq]
    rfl

theorem takeRest_unify (negative : Bool) (whole rest : List Char) :
    takeRest negative whole (unify rest) = (takeRest negative whole rest).unified := by
  unfold takeRest
  rw [takeFraction?_unify]
  have hgetD : ((takeFraction? rest).map fun (fraction, left) => (fraction, unify left)).getD ([], unify rest) =
      (((takeFraction? rest).getD ([], rest)).1, unify ((takeFraction? rest).getD ([], rest)).2) := by
    cases takeFraction? rest <;> rfl
  rw [hgetD]
  obtain ⟨fraction, left⟩ := (takeFraction? rest).getD ([], rest)
  simp only [takeExponent?_unify]
  cases takeExponent? left with
  | some p => rfl
  | none =>
    simp only [Option.map_none]
    split_ifs <;> rfl

theorem takeNumber_unify (cs : List Char) : takeNumber (unify cs) = (takeNumber cs).unified := by
  rcases Lines.unify_cases cs with rfl | ⟨c, rest, hc, rfl, heq⟩ | ⟨rest, left, rfl, heq⟩
  · rfl
  · by_cases hminus : c = '-'
    · subst hminus
      rw [heq, takeNumber_minus, takeNumber_minus, takeWhole?_unify]
      cases takeWhole? rest with
      | none =>
        rw [Taken.unified, heq]
        rfl
      | some p => exact takeRest_unify true p.1 p.2
    · have hhead : (c :: rest).head? ≠ some '-' := by simpa using hminus
      have hhead' : (unify (c :: rest)).head? ≠ some '-' := by simpa [heq] using hminus
      rw [takeNumber_plain hhead, takeNumber_plain hhead', takeWhole?_unify]
      cases takeWhole? (c :: rest) with
      | none => rfl
      | some p => exact takeRest_unify false p.1 p.2
  · rw [heq]
    show Except.error (Stop.malformed Problem.value ('\n' :: left)) = Except.error (Stop.malformed Problem.value _)
    rw [heq]

/-- A word without line ends stands at the front of a text if it does so with the line ends made alike. -/
theorem isPrefixOf_unify {word : List Char} (h : ∀ c ∈ word, c ≠ '\n' ∧ c ≠ '\r') (cs : List Char) :
    word.isPrefixOf (unify cs) = word.isPrefixOf cs := by
  induction word generalizing cs with
  | nil => simp
  | cons d word ih =>
    obtain ⟨hfeed, hreturn⟩ := h d List.mem_cons_self
    rcases Lines.unify_cases cs with rfl | ⟨c, rest, hc, rfl, heq⟩ | ⟨rest, left, rfl, heq⟩
    · rfl
    · rw [heq, List.isPrefixOf_cons_cons, List.isPrefixOf_cons_cons, ih fun c hc => h c (List.mem_cons_of_mem d hc)]
    · rw [heq, List.isPrefixOf_cons_cons, List.isPrefixOf_cons_cons, beq_false_of_ne hfeed, beq_false_of_ne hreturn]
      rfl

theorem find?_unify {α : Type} (word : α → List Char) {entries : List α}
    (h : ∀ e ∈ entries, ∀ c ∈ word e, c ≠ '\n' ∧ c ≠ '\r') (cs : List Char) :
    (entries.find? fun e => (word e).isPrefixOf (unify cs)) = entries.find? fun e => (word e).isPrefixOf cs := by
  induction entries with
  | nil => rfl
  | cons e entries ih =>
    rw [List.find?_cons, List.find?_cons, isPrefixOf_unify (h e List.mem_cons_self),
      ih fun e' he' => h e' (List.mem_cons_of_mem e he')]

theorem drop_unify {word cs : List Char} (h : '\r' ∉ word) (hfront : word.isPrefixOf cs = true) :
    (unify cs).drop word.length = unify (cs.drop word.length) := by
  obtain ⟨rest, rfl⟩ := List.isPrefixOf_iff_prefix.mp hfront
  rw [Lines.unify_append h, List.drop_left, List.drop_left]

theorem takeScalar_unify (cs : List Char) : takeScalar (unify cs) = (takeScalar cs).unified := by
  have hwords : (words.find? fun p => p.1.isPrefixOf (unify cs)) = words.find? fun p => p.1.isPrefixOf cs :=
    find?_unify Prod.fst (by simp [words]) cs
  have hconstants : (constants.find? fun name => name.isPrefixOf (unify cs)) =
      constants.find? fun name => name.isPrefixOf cs :=
    find?_unify id (by simp [constants]) cs
  cases hword : words.find? fun p => p.1.isPrefixOf cs with
  | some p =>
    have hfront := List.find?_some hword
    have hreturn : ∀ p ∈ words, '\r' ∉ p.1 := by simp [words]
    rw [takeScalar_word (hwords.trans hword), takeScalar_word hword,
      drop_unify (hreturn p (List.mem_of_find?_eq_some hword)) hfront]
    rfl
  | none =>
    cases hname : constants.find? fun name => name.isPrefixOf cs with
    | some name =>
      rw [takeScalar_constant (hwords.trans hword) (hconstants.trans hname), takeScalar_constant hword hname]
      rfl
    | none =>
      rw [takeScalar_number (hwords.trans hword) (hconstants.trans hname), takeScalar_number hword hname]
      exact takeNumber_unify cs

/-! ## Values -/

theorem head?_skipBlanks_unify {c : Char} (hc : c ≠ '\n') (cs : List Char) (h : (skipBlanks cs).head? ≠ some c) :
    (skipBlanks (unify cs)).head? ≠ some c := by
  rw [skipBlanks_unify]
  intro hhead
  obtain ⟨left, hleft⟩ := List.head?_eq_some_iff.mp hhead
  obtain ⟨rest, hrest, -⟩ := Lines.eq_cons_of_unify hc hleft
  rw [hrest] at h
  exact h rfl

theorem skipBlanks_unify_cons {c : Char} (hc : c ≠ '\r') {cs rest : List Char} (h : skipBlanks cs = c :: rest) :
    skipBlanks (unify cs) = c :: unify rest := by
  rw [skipBlanks_unify, h, Lines.unify_cons hc]

/-- What is gone through one by one is taken alike, if each is. -/
theorem series_unify {α : Type} {closing : Char} {one : List Char → Taken α} {next : List Char → Taken (List α)}
    (hone : ∀ cs, one (unify cs) = (one cs).unified)
    (hnext : ∀ cs, next (unify cs) = (next cs).unified) (cs : List Char) :
    series closing one next (unify cs) = (series closing one next cs).unified := by
  unfold series
  rw [hone]
  cases one cs with
  | error e => cases e <;> rfl
  | ok p =>
    obtain ⟨a, left⟩ := p
    simp only [unified_ok, behind]
    rcases skipBlanks_cases left with h | ⟨c, rest, h, hblank⟩
    · rw [skipBlanks_unify, h]
      rfl
    · have hc : c ≠ '\r' := by
        rintro rfl
        cases hblank
      rw [skipBlanks_unify_cons hc h, h]
      dsimp only
      split_ifs
      · rfl
      · rw [skipBlanks_unify, hnext, as_unified]
      · rw [← Lines.unify_cons hc]
        rfl

theorem takeMember_unify {fuel : Nat} (hvalue : ∀ cs, takeValue fuel (unify cs) = (takeValue fuel cs).unified)
    (cs : List Char) : takeMember fuel (unify cs) = (takeMember fuel cs).unified := by
  rcases Lines.unify_cases cs with rfl | ⟨c, rest, -, rfl, heq⟩ | ⟨rest, left, rfl, heq⟩
  · rfl
  · have hstring := takeString_unify (c :: rest) rest
    rw [heq] at hstring ⊢
    rw [takeMember, takeMember, hstring]
    split_ifs
    · cases takeString (c :: rest) rest with
      | error e => cases e <;> rfl
      | ok p =>
        obtain ⟨key, left⟩ := p
        simp only [unified_ok]
        rcases skipBlanks_cases left with h | ⟨d, tail, h, hblank⟩
        · rw [skipBlanks_unify, h]
          rfl
        · have hd : d ≠ '\r' := by
            rintro rfl
            cases hblank
          rw [skipBlanks_unify_cons hd h, h]
          dsimp only
          split_ifs
          · rw [skipBlanks_unify, hvalue, as_unified]
          · rw [← Lines.unify_cons hd]
            rfl
    · rw [← heq]
      rfl
  · rw [heq]
    show Except.error (Stop.malformed Problem.name ('\n' :: left)) = Except.error (Stop.malformed Problem.name _)
    rw [heq]

/-- With one more unit of fuel, a value is taken alike if items and members are. -/
theorem takeValue_unify_succ {fuel : Nat} (hitems : ∀ cs, takeItems fuel (unify cs) = (takeItems fuel cs).unified)
    (hmembers : ∀ cs, takeMembers fuel (unify cs) = (takeMembers fuel cs).unified) (cs : List Char) :
    takeValue (fuel + 1) (unify cs) = (takeValue (fuel + 1) cs).unified := by
  rcases Lines.unify_cases cs with rfl | ⟨c, rest, -, rfl, heq⟩ | ⟨rest, left, rfl, heq⟩
  · rfl
  · rw [heq]
    rcases first_cases c with rfl | rfl | rfl | ⟨hquote, hbrace, hbracket⟩
    · have hstring := takeString_unify ('"' :: rest) rest
      rw [heq] at hstring
      rw [takeValue_quote, takeValue_quote, hstring, as_unified]
    · by_cases hempty : (skipBlanks rest).head? = some ']'
      · obtain ⟨tail, htail⟩ := List.head?_eq_some_iff.mp hempty
        rw [takeValue_brackets fuel htail, takeValue_brackets fuel (skipBlanks_unify_cons (by decide) htail),
          unified_ok]
      · rw [takeValue_bracket fuel hempty, takeValue_bracket fuel (head?_skipBlanks_unify (by decide) rest hempty),
          skipBlanks_unify, hitems, as_unified]
    · by_cases hempty : (skipBlanks rest).head? = some '\x7d'
      · obtain ⟨tail, htail⟩ := List.head?_eq_some_iff.mp hempty
        rw [takeValue_braces fuel htail, takeValue_braces fuel (skipBlanks_unify_cons (by decide) htail), unified_ok]
      · rw [takeValue_brace fuel hempty, takeValue_brace fuel (head?_skipBlanks_unify (by decide) rest hempty),
          skipBlanks_unify, hmembers, as_unified]
    · rw [takeValue_scalar fuel hquote hbrace hbracket, takeValue_scalar fuel hquote hbrace hbracket, ← heq,
        takeScalar_unify]
  · have hreturn : takeValue (fuel + 1) ('\r' :: rest) = .error (.malformed .value ('\r' :: rest)) := rfl
    rw [hreturn, Taken.unified, heq]
    rfl

/-- Values, items and members are taken from a text as from the text with its line ends made alike. -/
theorem take_unify (fuel : Nat) :
    (∀ cs, takeValue fuel (unify cs) = (takeValue fuel cs).unified) ∧
    (∀ cs, takeItems fuel (unify cs) = (takeItems fuel cs).unified) ∧
    (∀ cs, takeMembers fuel (unify cs) = (takeMembers fuel cs).unified) := by
  induction fuel with
  | zero =>
    refine ⟨?_, ?_, ?_⟩
    · intro cs
      rfl
    · intro cs
      rfl
    · intro cs
      rfl
  | succ fuel ih =>
    obtain ⟨hvalue, hitems, hmembers⟩ := ih
    refine ⟨takeValue_unify_succ hitems hmembers, ?_, ?_⟩
    · intro cs
      rw [takeItems_succ, takeItems_succ, series_unify hvalue hitems]
    · intro cs
      rw [takeMembers_succ, takeMembers_succ, series_unify (takeMember_unify hvalue) hmembers]

end Redeclare.Json

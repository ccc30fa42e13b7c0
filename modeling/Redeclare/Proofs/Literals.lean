import Mathlib.Tactic.SplitIfs
import Redeclare.Json.Printer
import Redeclare.Json.Reader

/-!
# String literals

A literal that was written is read back, code point by code point. The characters with an escape of their own, the other
controls, and all other characters are the three ways in which a code point is written.
-/

namespace Redeclare.Text

theorem eq_of_ofChars {a b : List Char} (h : ofChars a = ofChars b) : a = b := by
  have hsome := congrArg chars? h
  rw [chars?_ofChars, chars?_ofChars] at hsome
  exact Option.some.inj hsome

/-- Characters that are a text in front of another consist of the characters of both. -/
theorem ofChars_eq_append {cs : List Char} {s t : Text} (h : ofChars cs = s ++ t) :
    ∃ a b, cs = a ++ b ∧ ofChars a = s ∧ ofChars b = t :=
  List.map_eq_append_iff.mp h

/-- Characters that begin with characters. -/
theorem ofChars_eq_ofChars_append {cs a : List Char} {t : Text} (h : ofChars cs = ofChars a ++ t) :
    ∃ b, cs = a ++ b ∧ ofChars b = t := by
  obtain ⟨a', b, rfl, ha, hb⟩ := ofChars_eq_append h
  exact ⟨b, by rw [eq_of_ofChars ha], hb⟩

theorem ofChars_eq_cons {cs : List Char} {c : Char} {t : Text} (h : ofChars cs = .char c :: t) :
    ∃ b, cs = c :: b ∧ ofChars b = t :=
  ofChars_eq_ofChars_append (a := [c]) h

end Redeclare.Text

namespace Redeclare.Json

/-- The way in which a literal shows a character. -/
def escapedChar (c : Char) : List Char :=
  if c = '"' then ['\\', '"']
  else if c = '\\' then ['\\', '\\']
  else if c = '\n' then ['\\', 'n']
  else if c = '\r' then ['\\', 'r']
  else if c = '\t' then ['\\', 't']
  else if c = '\x0c' then ['\\', 'f']
  else if c = '\x08' then ['\\', 'b']
  else if c.toNat < 0x20 then
    '\\' :: 'u' :: (List.replicate (4 - (Nat.toDigits 16 c.toNat).length) '0' ++ Nat.toDigits 16 c.toNat)
  else [c]

theorem escaped_char (c : Char) : escaped (.char c) = Text.ofChars (escapedChar c) := by
  have hcode : (Point.char c).code = c.toNat := rfl
  unfold escaped escapedChar
  simp only [Point.char.injEq, hcode]
  split_ifs <;> rfl

theorem escaped_lone (u : Fin 2048) : escaped (.lone u) = [.lone u] := by
  have hcode : ¬(Point.lone u).code < 0x20 := by
    show ¬0xD800 + u.val < 0x20
    omega
  simp [escaped, hcode]

/-- The four hexadecimal digits of a control are read as its number. -/
theorem exists_hexDigits {n : Nat} (h : n < 0x20) :
    ∃ w x y z, List.replicate (4 - (Nat.toDigits 16 n).length) '0' ++ Nat.toDigits 16 n = [w, x, y, z] ∧
      hexValue4? w x y z = some n := by
  obtain ⟨high, low, hn, hlow, hhigh⟩ : ∃ high low, n = 16 * high + low ∧ low < 16 ∧ high < 2 :=
    ⟨n / 16, n % 16, by omega, by omega, by omega⟩
  have hall : ∀ high < 2, ∀ low < 16, hexValue4? '0' '0' (Nat.digitChar high) (Nat.digitChar low) =
      some (16 * high + low) := by decide
  refine ⟨'0', '0', Nat.digitChar high, Nat.digitChar low, ?_, hn ▸ hall high hhigh low hlow⟩
  have hdigits : ∀ high < 2, ∀ low < 16, List.replicate (4 - (Nat.toDigits 16 (16 * high + low)).length) '0' ++
      Nat.toDigits 16 (16 * high + low) = ['0', '0', Nat.digitChar high, Nat.digitChar low] := by decide
  exact hn ▸ hdigits high hhigh low hlow

/-! ## One step of a literal -/

section
variable (opening : List Char) {cs : List Char}

/-- A character that stands for itself is taken as it is. -/
theorem takeString_char {c : Char} (hlarge : ¬c.toNat < 0x20) (hquote : c ≠ '"') (hback : c ≠ '\\') :
    takeString opening (c :: cs) = attachTo (.char c) (takeString opening cs) := by
  rw [takeString, if_neg hlarge]
  · exact hquote
  · rintro rfl
    exact absurd rfl hback
  · rintro _ rfl
    exact absurd rfl hback
  · rintro _ _ rfl
    exact absurd rfl hback

/-- A character below the space is refused. -/
theorem takeString_control {c : Char} (hsmall : c.toNat < 0x20) :
    takeString opening (c :: cs) = .error (.malformed .control (c :: cs)) := by
  have hne : ∀ d : Char, ¬d.toNat < 0x20 → c ≠ d := by
    rintro d hd rfl
    exact hd hsmall
  rw [takeString, if_pos hsmall]
  · exact hne '"' (by decide)
  · rintro rfl
    exact absurd rfl (hne '\\' (by decide))
  · rintro _ rfl
    exact absurd rfl (hne '\\' (by decide))
  · rintro _ _ rfl
    exact absurd rfl (hne '\\' (by decide))

/-- A letter behind a backslash is taken as the character that it stands for. -/
theorem takeString_letter {c d : Char} (h : unescape? c = some d) :
    takeString opening ('\\' :: c :: cs) = attachTo (.char d) (takeString opening cs) := by
  have hu : c ≠ 'u' := by
    rintro rfl
    cases h
  rw [takeString]
  · simp only [h]
  · exact hu

/-- Behind a backslash nothing but letters is taken, and the codes of characters. -/
theorem takeString_of_unescape?_eq_none {c : Char} (hu : c ≠ 'u') (h : unescape? c = none) :
    takeString opening ('\\' :: c :: cs) = .error (.malformed .escape ('\\' :: c :: cs)) := by
  rw [takeString]
  · simp only [h]
  · exact hu

/-- The code of a character is taken as the character, when something follows it. -/
theorem takeString_code {a b c d : Char} {n : Nat} (h : hexValue4? a b c d = some n) (hne : cs ≠ []) :
    takeString opening ('\\' :: 'u' :: a :: b :: c :: d :: cs) =
      attachTo (Point.ofCode n) (takeString opening cs) := by
  have hempty : ¬cs.isEmpty = true := by simpa using hne
  rw [takeString]
  simp only [h, hempty]
  rfl

/-- A code without its four digits, or with nothing behind them, is refused. -/
theorem takeString_of_no_code
    (h : ∀ a b c d rest n, cs = a :: b :: c :: d :: rest → hexValue4? a b c d = some n → rest = []) :
    takeString opening ('\\' :: 'u' :: cs) = .error (.malformed .unicodeEscape ('u' :: cs)) := by
  by_cases hfour : ∃ a b c d rest, cs = a :: b :: c :: d :: rest
  · obtain ⟨a, b, c, d, rest, rfl⟩ := hfour
    rw [takeString]
    split
    · rename_i hn
      rw [h a b c d rest _ rfl hn]
      rfl
    · rfl
  · rw [takeString]
    intro a b c d rest hcs
    exact hfour ⟨a, b, c, d, rest, hcs⟩

end

/-! ## What was written -/

/-- A character that was written is read back, when something follows it. -/
theorem takeString_escapedChar (opening : List Char) (c : Char) {tail : List Char} (h : tail ≠ []) :
    takeString opening (escapedChar c ++ tail) = attachTo (.char c) (takeString opening tail) := by
  unfold escapedChar
  split_ifs with hquote hback hn hr ht hf hb hcontrol
  · subst hquote
    exact takeString_letter opening rfl
  · subst hback
    exact takeString_letter opening rfl
  · subst hn
    exact takeString_letter opening rfl
  · subst hr
    exact takeString_letter opening rfl
  · subst ht
    exact takeString_letter opening rfl
  · subst hf
    exact takeString_letter opening rfl
  · subst hb
    exact takeString_letter opening rfl
  · obtain ⟨w, x, y, z, hdigits, hvalue⟩ := exists_hexDigits hcontrol
    have hpoint : Point.ofCode c.toNat = .char c := by
      rw [Point.ofCode, dif_neg (by omega), Char.ofNat_toNat]
    have hcode := takeString_code opening hvalue h
    rw [hpoint] at hcode
    rw [hdigits]
    exact hcode
  · exact takeString_char opening hcontrol hquote hback

/-- The content of a literal that was written is read back. -/
theorem takeString_escaped (opening : List Char) {t : Text} {cs rest : List Char}
    (h : Text.ofChars cs = t.flatMap escaped ++ .char '"' :: Text.ofChars rest) :
    takeString opening cs = .ok (t, rest) := by
  induction t generalizing cs with
  | nil =>
    obtain ⟨b, rfl, hb⟩ := Text.ofChars_eq_cons h
    rw [Text.eq_of_ofChars hb]
    rfl
  | cons p t ih =>
    rw [List.flatMap_cons, List.append_assoc] at h
    cases p with
    | lone u =>
      rw [escaped_lone] at h
      cases cs with
      | nil => cases h
      | cons c cs => simp at h
    | char c =>
      rw [escaped_char] at h
      obtain ⟨b, rfl, hb⟩ := Text.ofChars_eq_ofChars_append h
      have hne : b ≠ [] := by
        rintro rfl
        simp at hb
      rw [takeString_escapedChar opening c hne, ih hb]
      rfl

/-- A literal that was written is a quote, its content and a quote, and is read back. -/
theorem takeString_literal {t : Text} {cs rest : List Char}
    (h : Text.ofChars cs = literal t ++ Text.ofChars rest) :
    ∃ body, cs = '"' :: body ∧ takeString cs body = .ok (t, rest) := by
  have hsplit :
      literal t ++ Text.ofChars rest = .char '"' :: (t.flatMap escaped ++ .char '"' :: Text.ofChars rest) := by
    simp [literal]
  rw [hsplit] at h
  obtain ⟨body, rfl, hbody⟩ := Text.ofChars_eq_cons h
  exact ⟨body, rfl, takeString_escaped _ hbody⟩

end Redeclare.Json

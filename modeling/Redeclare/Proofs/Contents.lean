import Redeclare.Proofs.Grammar
import Redeclare.Proofs.LineEnds

/-!
# Strings and the grammar

What stands between the quotes of a string is taken exactly when the grammar derives it, and as the text that it denotes
there. The reader joins the halves of a surrogate pair afterwards, when a half finds another in front of what was taken
behind it; in the grammar the pair is one rule. The two agree because a text that begins with a half begins in the
document with an escape for it.
-/

namespace Redeclare.Grammar

open Json

/-! ## Hexadecimal digits -/

theorem toNat_lt_of_hexValue? {c : Char} {n : Nat} (h : hexValue? c = some n) : c.toNat < 128 := by
  unfold hexValue? at h
  split_ifs at h with hdigit hlower hupper
  · exact Nat.lt_of_le_of_lt (UInt32.le_iff_toNat_le.mp hdigit.2) (by decide)
  · exact Nat.lt_of_le_of_lt (UInt32.le_iff_toNat_le.mp hlower.2) (by decide)
  · exact Nat.lt_of_le_of_lt (UInt32.le_iff_toNat_le.mp hupper.2) (by decide)

theorem hexValue?_iff {c : Char} {n : Nat} : hexValue? c = some n ↔ HexDigit c n := by
  constructor
  · intro h
    have hall : ∀ k < 128, ∀ n ∈ hexValue? (Char.ofNat k), HexDigit (Char.ofNat k) n := by
      unfold HexDigit
      decide +kernel
    have hc := hall c.toNat (toNat_lt_of_hexValue? h) n
    rw [Char.ofNat_toNat] at hc
    exact hc h
  · rintro ⟨hn, rfl | rfl⟩
    · have hall : ∀ n < 16, hexValue? (Nat.digitChar n) = some n := by decide
      exact hall n hn
    · have hall : ∀ n < 16, hexValue? (Nat.digitChar n).toUpper = some n := by decide
      exact hall n hn

theorem hexValue4?_iff {a b c d : Char} {n : Nat} : hexValue4? a b c d = some n ↔ HexDigits [a, b, c, d] n := by
  constructor
  · intro h
    unfold hexValue4? at h
    split at h
    · rename_i k l m o ha hb hc hd
      have hn : ((k * 16 + l) * 16 + m) * 16 + o = n := by
        have hsome := Option.some.inj h
        omega
      rw [← hn]
      exact .mk (hexValue?_iff.mp ha) (hexValue?_iff.mp hb) (hexValue?_iff.mp hc) (hexValue?_iff.mp hd)
    · cases h
  · intro h
    cases h with
    | @mk _ _ _ _ k l m o ha hb hc hd =>
      have hn : k * 0x1000 + l * 0x100 + m * 0x10 + o = ((k * 16 + l) * 16 + m) * 16 + o := by omega
      simp only [hexValue4?, hexValue?_iff.mpr ha, hexValue?_iff.mpr hb, hexValue?_iff.mpr hc, hexValue?_iff.mpr hd, hn]

theorem HexDigits.exists_eq {digits : List Char} {n : Nat} (h : HexDigits digits n) :
    ∃ a b c d, digits = [a, b, c, d] ∧ hexValue4? a b c d = some n := by
  cases h with
  | mk ha hb hc hd => exact ⟨_, _, _, _, rfl, hexValue4?_iff.mpr (.mk ha hb hc hd)⟩

/-- Digits in front of two texts that are the same are the same, with the same value. -/
theorem HexDigits.append_inj {digits other cs ds : List Char} {m n : Nat} (h : HexDigits digits m)
    (hother : HexDigits other n) (heq : digits ++ cs = other ++ ds) : m = n ∧ cs = ds := by
  obtain ⟨a, b, c, d, rfl, hm⟩ := h.exists_eq
  obtain ⟨a', b', c', d', rfl, hn⟩ := hother.exists_eq
  cases heq
  exact ⟨Option.some.inj (hm.symm.trans hn), rfl⟩

/-! ## Escapes -/

theorem unescape?_iff {c d : Char} : unescape? c = some d ↔ (c, d) ∈ letters := by
  constructor
  · intro h
    unfold unescape? at h
    split at h
    all_goals first
      | cases h; decide
      | cases h
  · intro h
    have hall : ∀ p ∈ letters, unescape? p.1 = some p.2 := by decide
    exact hall (c, d) h

theorem not_mem_letters_u (d : Char) : ('u', d) ∉ letters := by
  rw [← unescape?_iff]
  exact nofun

theorem ofCode_of_not_surrogate {n : Nat} (hhigh : ¬IsHigh n) (hlow : ¬IsLow n) :
    Point.ofCode n = .char (Char.ofNat n) := by
  unfold IsHigh at hhigh
  unfold IsLow at hlow
  rw [Point.ofCode, dif_neg (by omega)]

theorem ofCode_half (u : Fin 2048) : Point.ofCode (0xD800 + u) = .lone u := by
  rw [Point.ofCode, dif_pos (by omega), Point.lone.injEq, Fin.ext_iff]
  exact Nat.add_sub_cancel_left ..

theorem exists_half {n : Nat} (h : IsHigh n ∨ IsLow n) : ∃ u : Fin 2048, n = 0xD800 + u := by
  unfold IsHigh IsLow at h
  exact ⟨⟨n - 0xD800, by omega⟩, by simp only; omega⟩

/-! ## Halves of surrogate pairs -/

theorem attach_char (c : Char) (t : Text) : attach (.char c) t = .char c :: t := by
  cases t <;> rfl

/-- A half that finds no second half in front of the text stays alone. -/
theorem attach_lone {u : Fin 2048} {t : Text} (h : ∀ v t', t = .lone v :: t' → ¬(u.val < 0x400 ∧ 0x400 ≤ v.val)) :
    attach (.lone u) t = .lone u :: t := by
  unfold attach
  split
  · rename_i hpoint
    cases hpoint
    rw [if_neg (h _ _ rfl)]
  · rfl

/-- A first half that finds a second half joins with it. -/
theorem attach_pair {m n : Nat} (hm : IsHigh m) (hn : IsLow n) (t : Text) :
    attach (Point.ofCode m) (attach (Point.ofCode n) t) =
      .char (Char.ofNat (0x10000 + (m - 0xD800) * 0x400 + (n - 0xDC00))) :: t := by
  obtain ⟨u, rfl⟩ := exists_half (.inl hm)
  obtain ⟨v, rfl⟩ := exists_half (.inr hn)
  unfold IsHigh at hm
  unfold IsLow at hn
  have hvalue : 0x10000 + u.val * 0x400 + (v.val - 0x400) =
      0x10000 + (0xD800 + u.val - 0xD800) * 0x400 + (0xD800 + v.val - 0xDC00) := by omega
  have halone : attach (.lone v) t = .lone v :: t := attach_lone fun _ _ _ h => by omega
  rw [ofCode_half, ofCode_half, halone, attach, if_pos (by omega), hvalue]

/-- A text that begins with a half comes from an escape for it. -/
theorem Content.exists_of_lone {cs : List Char} {v : Fin 2048} {t : Text} (h : Content cs (.lone v :: t)) :
    ∃ digits rest, cs = '\\' :: 'u' :: digits ++ rest ∧ HexDigits digits (0xD800 + v) ∧ Content rest t := by
  cases h with
  | half hdigits _ hrest => exact ⟨_, _, rfl, hdigits, hrest⟩

/-- An escape for a second half begins a text with that half. -/
theorem Content.exists_lone_of_lowAhead {cs : List Char} {t : Text} (h : Content cs t) (hlow : LowAhead cs) :
    ∃ v t', t = .lone v :: t' ∧ 0x400 ≤ v.val := by
  obtain ⟨digits, n, rest, htext, hdigits, hn⟩ := hlow
  cases h with
  | nil => cases htext
  | unescaped _ _ hback _ =>
    cases htext
    exact absurd rfl hback
  | letter hletter _ =>
    cases htext
    exact absurd hletter (not_mem_letters_u _)
  | code hother _ hnot _ =>
    obtain ⟨rfl, -⟩ := hother.append_inj hdigits (by simpa using htext)
    exact absurd hn hnot
  | pair hhigh hm _ _ _ =>
    obtain ⟨rfl, -⟩ := hhigh.append_inj hdigits (by simpa using htext)
    unfold IsHigh at hm
    unfold IsLow at hn
    omega
  | half hother _ _ =>
    obtain ⟨rfl, -⟩ := hother.append_inj hdigits (by simpa using htext)
    unfold IsLow at hn
    exact ⟨_, _, rfl, by omega⟩

/-- A code in front of what the grammar derives. -/
theorem Content.attach_code {digits cs : List Char} {n : Nat} {t : Text} (hdigits : HexDigits digits n)
    (h : Content cs t) : Content ('\\' :: 'u' :: digits ++ cs) (attach (Point.ofCode n) t) := by
  by_cases hsurrogate : IsHigh n ∨ IsLow n
  · obtain ⟨u, rfl⟩ := exists_half hsurrogate
    by_cases hpair : ∃ v t', t = .lone v :: t' ∧ u.val < 0x400 ∧ 0x400 ≤ v.val
    · obtain ⟨v, t', rfl, hu, hv⟩ := hpair
      obtain ⟨low, rest, rfl, hlow, hrest⟩ := h.exists_of_lone
      have hm : IsHigh (0xD800 + u) := by
        unfold IsHigh
        omega
      have hn : IsLow (0xD800 + v) := by
        unfold IsLow
        omega
      have hsplit := Content.pair hdigits hm hlow hn hrest
      rw [← attach_pair hm hn, ofCode_half v, attach_lone fun _ _ _ h => by omega] at hsplit
      exact hsplit
    · have hnone : ¬(IsHigh (0xD800 + u) ∧ LowAhead cs) := by
        rintro ⟨hhigh, hahead⟩
        obtain ⟨v, t', rfl, hv⟩ := h.exists_lone_of_lowAhead hahead
        unfold IsHigh at hhigh
        exact hpair ⟨v, t', rfl, by omega, hv⟩
      rw [ofCode_half, attach_lone fun v t' ht hv => hpair ⟨v, t', ht, hv⟩]
      exact .half hdigits hnone h
  · rw [not_or] at hsurrogate
    rw [ofCode_of_not_surrogate hsurrogate.1 hsurrogate.2, attach_char]
    exact .code hdigits hsurrogate.1 hsurrogate.2 h

/-! ## The content of a string -/

theorem exists_of_attachTo {p : Point} {taken : Taken Text} {t : Text} {rest : List Char}
    (h : attachTo p taken = .ok (t, rest)) : ∃ t', taken = .ok (t', rest) ∧ t = attach p t' := by
  cases taken with
  | error e => cases h
  | ok q =>
    cases h
    exact ⟨q.1, rfl, rfl⟩

theorem eq_error_of_attachTo {p : Point} {taken : Taken Text} {e : Stop} (h : attachTo p taken = .error e) :
    taken = .error e := by
  cases taken with
  | error e' =>
    cases h
    rfl
  | ok q => cases h

/-- What is taken up to the closing quote is derived. -/
theorem exists_content_of_takeString {opening cs rest : List Char} {t : Text}
    (h : takeString opening cs = .ok (t, rest)) : ∃ body, cs = body ++ '"' :: rest ∧ Content body t := by
  fun_induction takeString opening cs generalizing t with
  | case2 rest =>
    cases h
    exact ⟨[], rfl, .nil⟩
  | case5 a b c d rest n hn _ ih =>
    obtain ⟨t', htake, rfl⟩ := exists_of_attachTo h
    obtain ⟨body, rfl, hbody⟩ := ih htake
    exact ⟨'\\' :: 'u' :: [a, b, c, d] ++ body, by simp, hbody.attach_code (hexValue4?_iff.mp hn)⟩
  | case8 c rest _ d hd ih =>
    obtain ⟨t', htake, rfl⟩ := exists_of_attachTo h
    obtain ⟨body, rfl, hbody⟩ := ih htake
    rw [attach_char]
    exact ⟨'\\' :: c :: body, rfl, .letter (unescape?_iff.mp hd) hbody⟩
  | case11 c rest hquote _ _ hback hlarge ih =>
    obtain ⟨t', htake, rfl⟩ := exists_of_attachTo h
    obtain ⟨body, rfl, hbody⟩ := ih htake
    have hback' : c ≠ '\\' := by
      rintro rfl
      obtain ⟨d, tail, hcons⟩ := List.exists_cons_of_ne_nil (show body ++ '"' :: _ ≠ [] by simp)
      exact hback d tail rfl hcons
    rw [attach_char]
    exact ⟨c :: body, rfl, .unescaped (Nat.le_of_not_lt hlarge) hquote hback' hbody⟩
  | _ => cases h

/-- The code of a character is taken, when something follows it. -/
theorem HexDigits.takeString {digits : List Char} {n : Nat} (h : HexDigits digits n) (opening : List Char)
    {cs : List Char} (hne : cs ≠ []) :
    Json.takeString opening ('\\' :: 'u' :: digits ++ cs) =
      attachTo (Point.ofCode n) (Json.takeString opening cs) := by
  obtain ⟨a, b, c, d, rfl, hn⟩ := h.exists_eq
  exact takeString_code opening hn hne

/-- What is derived is taken, up to the closing quote. -/
theorem Content.takeString {body : List Char} {t : Text} (h : Content body t) (opening rest : List Char) :
    Json.takeString opening (body ++ '"' :: rest) = .ok (t, rest) := by
  induction h with
  | nil => rfl
  | unescaped hlarge hquote hback _ ih =>
    rw [List.cons_append, takeString_char opening (Nat.not_lt.mpr hlarge) hquote hback, ih, attachTo, attach_char]
  | letter hletter _ ih =>
    rw [List.cons_append, List.cons_append, takeString_letter opening (unescape?_iff.mpr hletter), ih, attachTo,
      attach_char]
  | code hdigits hhigh hlow _ ih =>
    rw [List.append_assoc, hdigits.takeString opening (by simp), ih, attachTo, ofCode_of_not_surrogate hhigh hlow,
      attach_char]
  | pair hhigh hm hlow hn _ ih =>
    rw [List.append_assoc, hhigh.takeString opening (by simp), List.append_assoc, hlow.takeString opening (by simp), ih,
      attachTo, attachTo, attach_pair hm hn]
  | @half digits cs u t hdigits hnone hcs ih =>
    rw [List.append_assoc, hdigits.takeString opening (by simp), ih, attachTo, ofCode_half, attach_lone]
    rintro v t' rfl ⟨hu, hv⟩
    obtain ⟨low, rest, rfl, hlow, -⟩ := hcs.exists_of_lone
    apply hnone
    unfold IsHigh
    exact ⟨by omega, low, _, rest, rfl, hlow, by unfold IsLow; omega⟩

end Redeclare.Grammar

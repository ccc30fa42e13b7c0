import Redeclare.Text.Utf8

/-!
# Bytes of characters

What was encoded is decoded to the same characters, and only that is decoded; a text is encoded exactly when it holds no
lone surrogate.
-/

namespace Redeclare.Utf8

/-! ## Single bytes -/

theorem toNat_byte {n : Nat} (h : n < 256) : (UInt8.ofNat n).toNat = n :=
  UInt8.toNat_ofNat_of_lt' h

theorem not_lt_of_toNat_le {b m : UInt8} (h : m.toNat ≤ b.toNat) : ¬b < m := by
  rw [UInt8.lt_iff_toNat_lt, Nat.not_lt]
  exact h

theorem isContinuation_iff (b : UInt8) : isContinuation b = true ↔ 0x80 ≤ b.toNat ∧ b.toNat < 0xC0 := by
  simp [isContinuation, UInt8.le_iff_toNat_le]
  omega

/-- What may follow the first byte of three, as numbers. -/
theorem mayFollowThree_iff (b c : UInt8) :
    mayFollowThree b c = true ↔
      isContinuation c = true ∧ (b.toNat = 0xE0 → 0xA0 ≤ c.toNat) ∧ (b.toNat = 0xED → c.toNat < 0xA0) := by
  simp [mayFollowThree, UInt8.le_iff_toNat_le, UInt8.lt_iff_toNat_lt, ← UInt8.toNat_inj, Decidable.imp_iff_not_or,
    and_assoc]

/-- What may follow the first byte of four, as numbers. -/
theorem mayFollowFour_iff (b c : UInt8) :
    mayFollowFour b c = true ↔
      isContinuation c = true ∧ (b.toNat = 0xF0 → 0x90 ≤ c.toNat) ∧ (b.toNat = 0xF4 → c.toNat < 0x90) := by
  simp [mayFollowFour, UInt8.le_iff_toNat_le, UInt8.lt_iff_toNat_lt, ← UInt8.toNat_inj, Decidable.imp_iff_not_or,
    and_assoc]

/-- A byte with the mark of a continuation is one, and carries six bits. -/
theorem continuation_byte {m n : Nat} (hm : m = 0x80 + n) (hn : n < 0x40) :
    isContinuation (UInt8.ofNat m) = true ∧ payload (UInt8.ofNat m) = n := by
  have hsub : m - 0x80 = n := by omega
  have hrange : 0x80 ≤ m ∧ m < 0xC0 := by omega
  have hlt : m < 256 := by omega
  have hb : (UInt8.ofNat m).toNat = m := toNat_byte hlt
  generalize UInt8.ofNat m = b at hb
  subst hb
  exact ⟨(isContinuation_iff b).mpr hrange, hsub⟩

/-! ## One character of each length -/

section
variable {start : Nat} {b c d e : UInt8} {rest : Bytes}

theorem decodeFrom_one (h : b.toNat < 0x80) :
    decodeFrom start (b :: rest) = push b.toNat (decodeFrom (start + 1) rest) := by
  rw [decodeFrom.eq_def]
  exact if_pos (UInt8.lt_iff_toNat_lt.mpr h)

theorem decodeFrom_two (hlow : 0xC2 ≤ b.toNat) (hhigh : b.toNat < 0xE0) (hc : isContinuation c = true) :
    decodeFrom start (b :: c :: rest) =
      push ((b.toNat - 0xC0) * 0x40 + payload c) (decodeFrom (start + 2) rest) := by
  have h1 : ¬b < 0x80 := not_lt_of_toNat_le (Nat.le_trans (by decide) hlow)
  have h2 : ¬b < 0xC2 := not_lt_of_toNat_le (Nat.le_trans (by decide) hlow)
  have h3 : b < 0xE0 := UInt8.lt_iff_toNat_lt.mpr hhigh
  rw [decodeFrom.eq_def]
  simp only [h1, h2, h3, hc, if_true, if_false]

theorem decodeFrom_three (hlow : 0xE0 ≤ b.toNat) (hhigh : b.toNat < 0xF0) (hc : mayFollowThree b c = true)
    (hd : isContinuation d = true) :
    decodeFrom start (b :: c :: d :: rest) =
      push ((b.toNat - 0xE0) * 0x1000 + payload c * 0x40 + payload d) (decodeFrom (start + 3) rest) := by
  have h1 : ¬b < 0x80 := not_lt_of_toNat_le (Nat.le_trans (by decide) hlow)
  have h2 : ¬b < 0xC2 := not_lt_of_toNat_le (Nat.le_trans (by decide) hlow)
  have h3 : ¬b < 0xE0 := not_lt_of_toNat_le (Nat.le_trans (by decide) hlow)
  have h4 : b < 0xF0 := UInt8.lt_iff_toNat_lt.mpr hhigh
  rw [decodeFrom.eq_def]
  simp only [h1, h2, h3, h4, hc, hd, if_true, if_false]

theorem decodeFrom_four (hlow : 0xF0 ≤ b.toNat) (hhigh : b.toNat < 0xF5) (hc : mayFollowFour b c = true)
    (hd : isContinuation d = true) (he : isContinuation e = true) :
    decodeFrom start (b :: c :: d :: e :: rest) =
      push ((b.toNat - 0xF0) * 0x40000 + payload c * 0x1000 + payload d * 0x40 + payload e)
        (decodeFrom (start + 4) rest) := by
  have h1 : ¬b < 0x80 := not_lt_of_toNat_le (Nat.le_trans (by decide) hlow)
  have h2 : ¬b < 0xC2 := not_lt_of_toNat_le (Nat.le_trans (by decide) hlow)
  have h3 : ¬b < 0xE0 := not_lt_of_toNat_le (Nat.le_trans (by decide) hlow)
  have h4 : ¬b < 0xF0 := not_lt_of_toNat_le (Nat.le_trans (by decide) hlow)
  have h5 : b < 0xF5 := UInt8.lt_iff_toNat_lt.mpr hhigh
  rw [decodeFrom.eq_def]
  simp only [h1, h2, h3, h4, h5, hc, hd, he, if_true, if_false]

end

/-! ## The bytes of a number -/

section
variable {n : Nat} (start : Nat) (rest : Bytes)

/-- The last six bits are carried by the last byte. -/
theorem continuation_last (n : Nat) :
    isContinuation (UInt8.ofNat (0x80 + n % 0x40)) = true ∧ payload (UInt8.ofNat (0x80 + n % 0x40)) = n % 0x40 :=
  continuation_byte rfl (Nat.mod_lt n (by decide))

theorem decodeFrom_bytes_one (h : n < 0x80) :
    decodeFrom start (UInt8.ofNat n :: rest) = push n (decodeFrom (start + 1) rest) := by
  have hb : (UInt8.ofNat n).toNat = n := toNat_byte (by omega)
  rw [decodeFrom_one (hb.symm ▸ h), hb]

theorem decodeFrom_bytes_two (h : 0x80 ≤ n) (h' : n < 0x800) :
    decodeFrom start (UInt8.ofNat (0xC0 + n / 0x40) :: UInt8.ofNat (0x80 + n % 0x40) :: rest) =
      push n (decodeFrom (start + 2) rest) := by
  have hb : (UInt8.ofNat (0xC0 + n / 0x40)).toNat = 0xC0 + n / 0x40 := toNat_byte (by omega)
  have hn : (0xC0 + n / 0x40 - 0xC0) * 0x40 + n % 0x40 = n := by omega
  have hlow : 0xC2 ≤ 0xC0 + n / 0x40 := by omega
  have hhigh : 0xC0 + n / 0x40 < 0xE0 := by omega
  obtain ⟨hlast, hpayload⟩ := continuation_last n
  rw [decodeFrom_two (hb.symm ▸ hlow) (hb.symm ▸ hhigh) hlast, hb, hpayload, hn]

/-- A short form has no bits in its first byte, and a surrogate would stand between the two ranges. -/
theorem decodeFrom_bytes_three (h : 0x800 ≤ n) (h' : n < 0x10000) (hsurrogate : n < 0xD800 ∨ 0xDFFF < n) :
    decodeFrom start (UInt8.ofNat (0xE0 + n / 0x1000) :: UInt8.ofNat (0x80 + n / 0x40 % 0x40) ::
      UInt8.ofNat (0x80 + n % 0x40) :: rest) = push n (decodeFrom (start + 3) rest) := by
  have hb : (UInt8.ofNat (0xE0 + n / 0x1000)).toNat = 0xE0 + n / 0x1000 := toNat_byte (by omega)
  have hc : (UInt8.ofNat (0x80 + n / 0x40 % 0x40)).toNat = 0x80 + n / 0x40 % 0x40 := toNat_byte (by omega)
  have hn : (0xE0 + n / 0x1000 - 0xE0) * 0x1000 + n / 0x40 % 0x40 * 0x40 + n % 0x40 = n := by omega
  have hlow : 0xE0 ≤ 0xE0 + n / 0x1000 := by omega
  have hhigh : 0xE0 + n / 0x1000 < 0xF0 := by omega
  have hshort : 0xE0 + n / 0x1000 = 0xE0 → 0xA0 ≤ 0x80 + n / 0x40 % 0x40 := by omega
  have hbetween : 0xE0 + n / 0x1000 = 0xED → 0x80 + n / 0x40 % 0x40 < 0xA0 := by omega
  obtain ⟨hlast, hpayload⟩ := continuation_last n
  obtain ⟨hmiddle, hmiddlePayload⟩ := continuation_last (n / 0x40)
  have hmay : mayFollowThree (UInt8.ofNat (0xE0 + n / 0x1000)) (UInt8.ofNat (0x80 + n / 0x40 % 0x40)) = true := by
    rw [mayFollowThree_iff, hb, hc]
    exact ⟨hmiddle, hshort, hbetween⟩
  rw [decodeFrom_three (hb.symm ▸ hlow) (hb.symm ▸ hhigh) hmay hlast, hb, hmiddlePayload, hpayload, hn]

theorem decodeFrom_bytes_four (h : 0x10000 ≤ n) (h' : n < 0x110000) :
    decodeFrom start (UInt8.ofNat (0xF0 + n / 0x40000) :: UInt8.ofNat (0x80 + n / 0x1000 % 0x40) ::
      UInt8.ofNat (0x80 + n / 0x40 % 0x40) :: UInt8.ofNat (0x80 + n % 0x40) :: rest) =
      push n (decodeFrom (start + 4) rest) := by
  have hb : (UInt8.ofNat (0xF0 + n / 0x40000)).toNat = 0xF0 + n / 0x40000 := toNat_byte (by omega)
  have hc : (UInt8.ofNat (0x80 + n / 0x1000 % 0x40)).toNat = 0x80 + n / 0x1000 % 0x40 := toNat_byte (by omega)
  have hn : (0xF0 + n / 0x40000 - 0xF0) * 0x40000 + n / 0x1000 % 0x40 * 0x1000 + n / 0x40 % 0x40 * 0x40 + n % 0x40 =
      n := by omega
  have hlow : 0xF0 ≤ 0xF0 + n / 0x40000 := by omega
  have hhigh : 0xF0 + n / 0x40000 < 0xF5 := by omega
  have hshort : 0xF0 + n / 0x40000 = 0xF0 → 0x90 ≤ 0x80 + n / 0x1000 % 0x40 := by omega
  have hbeyond : 0xF0 + n / 0x40000 = 0xF4 → 0x80 + n / 0x1000 % 0x40 < 0x90 := by omega
  obtain ⟨hlast, hpayload⟩ := continuation_last n
  obtain ⟨hmiddle, hmiddlePayload⟩ := continuation_last (n / 0x40)
  obtain ⟨hthird, hthirdPayload⟩ := continuation_last (n / 0x1000)
  have hmay : mayFollowFour (UInt8.ofNat (0xF0 + n / 0x40000)) (UInt8.ofNat (0x80 + n / 0x1000 % 0x40)) = true := by
    rw [mayFollowFour_iff, hb, hc]
    exact ⟨hthird, hshort, hbeyond⟩
  rw [decodeFrom_four (hb.symm ▸ hlow) (hb.symm ▸ hhigh) hmay hmiddle hlast, hb, hthirdPayload, hmiddlePayload,
    hpayload, hn]

end

/-- The number of a character is that of no surrogate and not beyond the last code point. -/
theorem toNat_range (c : Char) : c.toNat < 0xD800 ∨ 0xDFFF < c.toNat ∧ c.toNat < 0x110000 := c.valid

/-- Encoded characters in front of bytes are decoded first. -/
theorem decodeFrom_encodeChar (start : Nat) (c : Char) (rest : Bytes) :
    decodeFrom start (encodeChar c ++ rest) = push c.toNat (decodeFrom (start + (encodeChar c).length) rest) := by
  have hrange := toNat_range c
  unfold encodeChar
  generalize c.toNat = n at hrange
  dsimp only
  split
  · rename_i h1
    exact decodeFrom_bytes_one start rest h1
  split
  · rename_i h1 h2
    exact decodeFrom_bytes_two start rest (Nat.le_of_not_lt h1) h2
  split
  · rename_i _ h2 h3
    exact decodeFrom_bytes_three start rest (Nat.le_of_not_lt h2) h3 (hrange.imp_right And.left)
  · rename_i _ _ h3
    exact decodeFrom_bytes_four start rest (Nat.le_of_not_lt h3) (by omega)

/-- Characters that were encoded are decoded to themselves. -/
theorem decode_encodeChars (cs : List Char) : decode (encodeChars cs) = .ok cs := by
  unfold decode
  generalize 0 = start
  induction cs generalizing start with
  | nil => rfl
  | cons c cs ih =>
    have hcons : encodeChars (c :: cs) = encodeChar c ++ encodeChars cs := List.flatMap_cons
    rw [hcons, decodeFrom_encodeChar, ih, push, Char.ofNat_toNat]

/-! ## The characters of bytes -/

/-- The bytes of a character are those of the standard encoding. -/
theorem encodeChar_eq (c : Char) : encodeChar c = String.utf8EncodeChar c := by
  have hrange := toNat_range c
  have hval : c.val.toNat = c.toNat := rfl
  unfold encodeChar String.utf8EncodeChar
  rw [hval]
  generalize c.toNat = n at hrange
  dsimp only
  by_cases h1 : n < 0x80
  · rw [if_pos h1, if_pos (show n ≤ 127 by omega)]
  rw [if_neg h1, if_neg (show ¬n ≤ 127 by omega)]
  by_cases h2 : n < 0x800
  · have hb : 0xC0 + n / 0x40 = n / 64 % 32 + 192 := by omega
    rw [if_pos h2, if_pos (show n ≤ 2047 by omega), hb, Nat.add_comm 0x80]
  rw [if_neg h2, if_neg (show ¬n ≤ 2047 by omega)]
  by_cases h3 : n < 0x10000
  · have hb : 0xE0 + n / 0x1000 = n / 4096 % 16 + 224 := by omega
    rw [if_pos h3, if_pos (show n ≤ 65535 by omega), hb, Nat.add_comm 0x80, Nat.add_comm 0x80]
  · have hb : 0xF0 + n / 0x40000 = n / 262144 % 8 + 240 := by omega
    rw [if_neg h3, if_neg (show ¬n ≤ 65535 by omega), hb, Nat.add_comm 0x80, Nat.add_comm 0x80, Nat.add_comm 0x80]

theorem toNat_ofNat {n : Nat} (h : n < 0xD800 ∨ 0xDFFF < n ∧ n < 0x110000) : (Char.ofNat n).toNat = n := by
  rw [Char.ofNat, dif_pos h]
  rfl

theorem ofNat_eq {n : Nat} {b : UInt8} (h : n = b.toNat) : UInt8.ofNat n = b := by
  rw [h, UInt8.ofNat_toNat]

section
variable {b c d e : UInt8}

/-- A byte that is decoded alone is the one of its character. -/
theorem encodeChar_one (h : b.toNat < 0x80) : encodeChar (Char.ofNat b.toNat) = [b] := by
  have hn : (Char.ofNat b.toNat).toNat = b.toNat := toNat_ofNat (by omega)
  rw [encodeChar, hn, if_pos h, UInt8.ofNat_toNat]

/-- Two bytes that are decoded together are those of their character. -/
theorem encodeChar_two (hlow : 0xC2 ≤ b.toNat) (hhigh : b.toNat < 0xE0) (hc : isContinuation c = true) :
    encodeChar (Char.ofNat ((b.toNat - 0xC0) * 0x40 + payload c)) = [b, c] := by
  rw [isContinuation_iff] at hc
  obtain ⟨n, hn⟩ : ∃ n, n = (b.toNat - 0xC0) * 0x40 + payload c := ⟨_, rfl⟩
  have hc' : payload c = c.toNat - 0x80 := rfl
  have hchar : (Char.ofNat n).toNat = n := toNat_ofNat (by omega)
  rw [← hn, encodeChar, hchar]
  rw [if_neg (by omega), if_pos (by omega), ofNat_eq (b := b) (by omega), ofNat_eq (b := c) (by omega)]

/-- Three bytes that are decoded together are those of their character. -/
theorem encodeChar_three (hlow : 0xE0 ≤ b.toNat) (hhigh : b.toNat < 0xF0) (hc : mayFollowThree b c = true)
    (hd : isContinuation d = true) :
    encodeChar (Char.ofNat ((b.toNat - 0xE0) * 0x1000 + payload c * 0x40 + payload d)) = [b, c, d] := by
  rw [mayFollowThree_iff, isContinuation_iff] at hc
  rw [isContinuation_iff] at hd
  obtain ⟨n, hn⟩ : ∃ n, n = (b.toNat - 0xE0) * 0x1000 + payload c * 0x40 + payload d := ⟨_, rfl⟩
  have hc' : payload c = c.toNat - 0x80 := rfl
  have hd' : payload d = d.toNat - 0x80 := rfl
  have hchar : (Char.ofNat n).toNat = n := toNat_ofNat (by omega)
  rw [← hn, encodeChar, hchar]
  rw [if_neg (by omega), if_neg (by omega), if_pos (by omega), ofNat_eq (b := b) (by omega),
    ofNat_eq (b := c) (by omega), ofNat_eq (b := d) (by omega)]

/-- Four bytes that are decoded together are those of their character. -/
theorem encodeChar_four (hlow : 0xF0 ≤ b.toNat) (hhigh : b.toNat < 0xF5) (hc : mayFollowFour b c = true)
    (hd : isContinuation d = true) (he : isContinuation e = true) :
    encodeChar (Char.ofNat ((b.toNat - 0xF0) * 0x40000 + payload c * 0x1000 + payload d * 0x40 + payload e)) =
      [b, c, d, e] := by
  rw [mayFollowFour_iff, isContinuation_iff] at hc
  rw [isContinuation_iff] at hd he
  obtain ⟨n, hn⟩ : ∃ n, n = (b.toNat - 0xF0) * 0x40000 + payload c * 0x1000 + payload d * 0x40 + payload e :=
    ⟨_, rfl⟩
  have hc' : payload c = c.toNat - 0x80 := rfl
  have hd' : payload d = d.toNat - 0x80 := rfl
  have he' : payload e = e.toNat - 0x80 := rfl
  have hchar : (Char.ofNat n).toNat = n := toNat_ofNat (by omega)
  rw [← hn, encodeChar, hchar]
  rw [if_neg (by omega), if_neg (by omega), if_neg (by omega), ofNat_eq (b := b) (by omega),
    ofNat_eq (b := c) (by omega), ofNat_eq (b := d) (by omega), ofNat_eq (b := e) (by omega)]

end

theorem exists_of_push {n : Nat} {t : Except DecodeError (List Char)} {cs : List Char} (h : push n t = .ok cs) :
    ∃ ds, t = .ok ds ∧ cs = Char.ofNat n :: ds := by
  cases t with
  | error e => cases h
  | ok ds =>
    cases h
    exact ⟨ds, rfl, rfl⟩

/-- Bytes that are those of a first character and of the rest. -/
theorem encodeChars_of_push {n start : Nat} {front rest : Bytes} {cs : List Char}
    (hfront : encodeChar (Char.ofNat n) = front) (ih : ∀ {cs}, decodeFrom start rest = .ok cs → rest = encodeChars cs)
    (h : push n (decodeFrom start rest) = .ok cs) : front ++ rest = encodeChars cs := by
  obtain ⟨ds, hds, rfl⟩ := exists_of_push h
  have hcons : encodeChars (Char.ofNat n :: ds) = encodeChar (Char.ofNat n) ++ encodeChars ds := List.flatMap_cons
  rw [hcons, hfront, ← ih hds]

theorem toNat_le_of_not_lt {b m : UInt8} (h : ¬b < m) : m.toNat ≤ b.toNat := by
  rwa [UInt8.lt_iff_toNat_lt, Nat.not_lt] at h

/-- Bytes that are decoded are those of the characters that they are decoded to. -/
theorem eq_encodeChars_of_decode {bytes : Bytes} {cs : List Char} (h : decode bytes = .ok cs) :
    bytes = encodeChars cs := by
  unfold decode at h
  generalize 0 = start at h
  fun_induction decodeFrom start bytes generalizing cs with
  | case1 =>
    cases h
    rfl
  | case2 start b rest h1 ih =>
    exact encodeChars_of_push (encodeChar_one (UInt8.lt_iff_toNat_lt.mp h1)) ih h
  | case5 start b h1 h2 h3 c rest hc ih =>
    exact encodeChars_of_push (encodeChar_two (toNat_le_of_not_lt h2) (UInt8.lt_iff_toNat_lt.mp h3) hc) ih h
  | case9 start b h1 h2 h3 h4 c hc d rest hd ih =>
    exact encodeChars_of_push (encodeChar_three (toNat_le_of_not_lt h3) (UInt8.lt_iff_toNat_lt.mp h4) hc hd) ih h
  | case15 start b h1 h2 h3 h4 h5 c hc d hd e rest he ih =>
    exact encodeChars_of_push (encodeChar_four (toNat_le_of_not_lt h4) (UInt8.lt_iff_toNat_lt.mp h5) hc hd he) ih h
  | _ => cases h

/-- Bytes are decoded exactly when they are those of characters, and to these. -/
theorem decode_eq_ok_iff {bytes : Bytes} {cs : List Char} :
    decode bytes = .ok cs ↔ bytes = cs.flatMap String.utf8EncodeChar := by
  have hall : encodeChars cs = cs.flatMap String.utf8EncodeChar := by
    rw [encodeChars, funext encodeChar_eq]
  rw [← hall]
  constructor
  · exact eq_encodeChars_of_decode
  · rintro rfl
    exact decode_encodeChars cs

/-! ## Texts -/

/-- Characters can be encoded. -/
theorem encode_ofChars (cs : List Char) : encode (Text.ofChars cs) = .ok (encodeChars cs) := by
  unfold encode
  generalize 0 = start
  induction cs generalizing start with
  | nil => rfl
  | cons c cs ih =>
    rw [Text.ofChars_cons, encodeFrom, ih]
    rfl

/-- What can be encoded is characters. -/
theorem eq_ofChars_of_encode {t : Text} {bytes : Bytes} (h : encode t = .ok bytes) :
    ∃ cs, t = Text.ofChars cs ∧ bytes = encodeChars cs := by
  unfold encode at h
  generalize 0 = start at h
  induction t generalizing start bytes with
  | nil =>
    cases h
    exact ⟨[], rfl, rfl⟩
  | cons p t ih =>
    cases p with
    | lone u => cases h
    | char c =>
      rw [encodeFrom] at h
      split at h
      · rename_i rest hrest
        cases h
        obtain ⟨cs, rfl, rfl⟩ := ih _ hrest
        exact ⟨c :: cs, rfl, rfl⟩
      · cases h

/-- Texts are encoded piece by piece. -/
theorem encode_append_eq_ok_iff {a b : Text} {bytes : Bytes} :
    encode (a ++ b) = .ok bytes ↔ ∃ x y, encode a = .ok x ∧ encode b = .ok y ∧ bytes = x ++ y := by
  constructor
  · intro h
    obtain ⟨cs, hcs, rfl⟩ := eq_ofChars_of_encode h
    obtain ⟨x, y, rfl, rfl, rfl⟩ := List.map_eq_append_iff.mp hcs.symm
    exact ⟨_, _, encode_ofChars x, encode_ofChars y, List.flatMap_append⟩
  · rintro ⟨x, y, hx, hy, rfl⟩
    obtain ⟨cs, rfl, rfl⟩ := eq_ofChars_of_encode hx
    obtain ⟨ds, rfl, rfl⟩ := eq_ofChars_of_encode hy
    rw [← Text.ofChars_append, encode_ofChars, encodeChars, List.flatMap_append]
    rfl

end Redeclare.Utf8

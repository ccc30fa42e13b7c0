import Redeclare.Proofs.Bytes
import Redeclare.Proofs.Literals
import Redeclare.Proofs.Values

/-!
# The code points of a written document

Two kinds of code points are looked for in the text of a document: the carriage return, which the reader would turn into
a line feed, and lone surrogates, which no file can hold. Everything but the literals is written with other characters,
a literal escapes the carriage return, and it holds just the lone surrogates of its text. So a document can be encoded
exactly when it has no lone surrogate, and line ends are read as they were written.
-/

namespace Redeclare.Json

/-- A code point that stands in a document, if at all, in its literals: a carriage return or a lone surrogate. -/
def Rare (p : Point) : Prop := ∀ c, p = .char c → c = '\r'

theorem rare_return : Rare (.char '\r') := by
  intro c hc
  cases hc
  rfl

theorem rare_lone (u : Fin 2048) : Rare (.lone u) := by
  intro c hc
  cases hc

section
variable {p : Point}

theorem Rare.ne {c : Char} (hp : Rare p) (h : c ≠ '\r') : p ≠ .char c := fun hc => h (hp c hc)

theorem Rare.not_mem_ofChars {cs : List Char} (hp : Rare p) (h : '\r' ∉ cs) : p ∉ Text.ofChars cs := by
  intro hmem
  obtain ⟨c, hc, rfl⟩ := List.mem_map.mp hmem
  exact h (hp c rfl ▸ hc)

theorem Rare.mem_ofChars_append {cs : List Char} {t : Text} (hp : Rare p) (h : '\r' ∉ cs) :
    p ∈ Text.ofChars cs ++ t ↔ p ∈ t := by
  rw [List.mem_append, or_iff_right (hp.not_mem_ofChars h)]

/-! ## Literals -/

/-- A carriage return is escaped. -/
theorem return_not_mem_escapedChar (c : Char) : '\r' ∉ escapedChar c := by
  unfold escapedChar
  split_ifs with hquote hback hn hr ht hf hb hcontrol
  · decide
  · decide
  · decide
  · decide
  · decide
  · decide
  · decide
  · have hall : ∀ n < 0x20, '\r' ∉ '\\' :: 'u' ::
        (List.replicate (4 - (Nat.toDigits 16 n).length) '0' ++ Nat.toDigits 16 n) := by decide
    exact hall c.toNat hcontrol
  · rw [List.mem_singleton]
    exact fun h => hr h.symm

theorem Rare.mem_escaped (hp : Rare p) (q : Point) : p ∈ escaped q ↔ p = q ∧ p ≠ .char '\r' := by
  cases q with
  | char c =>
    rw [escaped_char]
    refine iff_of_false (hp.not_mem_ofChars (return_not_mem_escapedChar c)) ?_
    rintro ⟨h, hne⟩
    exact hne (hp c h ▸ h)
  | lone u =>
    rw [escaped_lone, List.mem_singleton]
    constructor
    · intro h
      refine ⟨h, ?_⟩
      rw [h]
      simp
    · intro h
      exact h.1

/-- A literal holds the lone surrogates of its text, and no carriage return. -/
theorem Rare.mem_literal (hp : Rare p) (t : Text) : p ∈ literal t ↔ p ∈ t ∧ p ≠ .char '\r' := by
  have hquote : p ≠ .char '"' := hp.ne (by decide)
  simp only [literal, List.mem_append, List.mem_cons, List.mem_flatMap, hp.mem_escaped, hquote, List.not_mem_nil,
    false_or, or_false]
  constructor
  · rintro ⟨q, hq, rfl, hne⟩
    exact ⟨hq, hne⟩
  · rintro ⟨hmem, hne⟩
    exact ⟨p, hmem, rfl, hne⟩

/-! ## Numbers -/

open Digits

/-- A character with which no number is written: no digit, sign, point or letter of an exponent. -/
def Numberless (c : Char) : Prop := c.isDigit = false ∧ c ∉ ['-', '+', '.', 'e']

namespace Numberless

theorem carriageReturn : Numberless '\r' := ⟨by decide, by decide⟩

variable {c : Char} (hc : Numberless c)
include hc

theorem ne {d : Char} (hd : d ∈ ['-', '+', '.', 'e']) : c ≠ d := by
  rintro rfl
  exact hc.2 hd

theorem not_mem_digits {ds : List Char} (h : ∀ d ∈ ds, d.isDigit = true) : c ∉ ds := by
  intro hmem
  have hdigit := h c hmem
  rw [hc.1] at hdigit
  cases hdigit

theorem ne_zero : c ≠ '0' := by
  have hzero := hc.not_mem_digits isDigit_of_mem_zero
  rwa [List.mem_singleton] at hzero

theorem not_mem_exponentText (layout : NumberLayout) (n : Int) : c ∉ layout.exponentText n := by
  have hdigits := hc.not_mem_digits (fun _ => isDigit_of_mem (n := n.natAbs))
  have hsign : c ≠ if n < 0 then '-' else '+' := by
    split <;> exact hc.ne (by decide)
  simp [NumberLayout.exponentText, hsign, hdigits, hc.ne_zero]

theorem not_mem_place (layout : NumberLayout) {ds : List Char} (place : Int) (h : c ∉ ds) :
    c ∉ layout.place ds place := by
  have hexponent := hc.not_mem_exponentText layout (place - 1)
  have htake : c ∉ ds.take place.toNat := fun hmem => h (List.mem_of_mem_take hmem)
  have hdrop : c ∉ ds.drop place.toNat := fun hmem => h (List.mem_of_mem_drop hmem)
  have hpoint : c ≠ '.' := hc.ne (by decide)
  have hletter : c ≠ 'e' := hc.ne (by decide)
  unfold NumberLayout.place
  split
  · simp [h, hc.ne_zero, hpoint]
  split
  · simp only [List.mem_append, List.mem_cons, List.mem_replicate, htake, hc.ne_zero, hpoint, and_false, false_or]
    split <;> simp [hdrop, hc.ne_zero]
  · split <;> simp_all

/-- The text of a double has no such character, but for the names of infinity and of no number. -/
theorem not_mem_double {layout : NumberLayout} (hinfinity : c ∉ layout.infinity) (hnan : c ∉ layout.nan) (x : Double) :
    c ∉ layout.double x := by
  have hsign : ∀ negative, c ∉ if negative = true then ['-'] else [] := by
    intro negative
    split
    · exact fun h => hc.ne (by decide) (List.mem_singleton.mp h)
    · exact List.not_mem_nil
  cases x with
  | finite negative x =>
    simp only [NumberLayout.double, List.mem_append, hsign, false_or, NumberLayout.magnitude]
    split
    · simp [hc.ne_zero, hc.ne (d := '.') (by decide)]
    · refine hc.not_mem_place _ _ (hc.not_mem_digits fun c hc => ?_)
      exact isDigit_of_mem (mem_of_mem_trimZeros hc)
  | infinite negative => simp [NumberLayout.double, hsign, hinfinity]
  | nan => exact hnan

end Numberless

/-- The text of a whole number has characters only, and none with which no number is written. -/
theorem not_mem_ofInt (hp : ∀ c, p = .char c → Numberless c) (n : Int) : p ∉ Text.ofInt n := by
  have hdigits : ∀ k, p ∉ Text.ofNat k := by
    intro k hmem
    obtain ⟨c, hc, rfl⟩ := List.mem_map.mp hmem
    exact (hp c rfl).not_mem_digits (fun _ => isDigit_of_mem) hc
  cases n with
  | ofNat n => exact hdigits n
  | negSucc n =>
    rw [Text.ofInt, List.mem_cons, not_or]
    exact ⟨fun h => (hp '-' h).ne (by decide) rfl, hdigits (n + 1)⟩

/-- The text of a whole number has no carriage return and no lone surrogate. -/
theorem Rare.not_mem_ofInt (hp : Rare p) (n : Int) : p ∉ Text.ofInt n :=
  Json.not_mem_ofInt (fun c hc => hp c hc ▸ Numberless.carriageReturn) n

theorem Rare.not_mem_newline (hp : Rare p) (depth : Nat) : p ∉ newline depth := by
  have hspace : p ≠ .char ' ' := hp.ne (by decide)
  have hfeed : p ≠ .char '\n' := hp.ne (by decide)
  simp [newline, hspace, hfeed]

/-! ## Documents -/

/-- A code point stands in a text, or in the name of a member. -/
def Mentions (p : Point) : Json → Prop
  | .str t => p ∈ t
  | .obj members => ∃ m ∈ members, p ∈ m.1
  | _ => False

/-- A code point stands in one of the texts and names of values. -/
def MentionedIn (p : Point) (vs : List Json) : Prop := ∃ w ∈ vs, Mentions p w

@[simp] theorem mentionedIn_nil : ¬MentionedIn p [] := by
  simp [MentionedIn]

@[simp] theorem mentionedIn_cons (v : Json) (vs : List Json) :
    MentionedIn p (v :: vs) ↔ Mentions p v ∨ MentionedIn p vs := by
  simp [MentionedIn]

@[simp] theorem mentionedIn_append (vs ws : List Json) :
    MentionedIn p (vs ++ ws) ↔ MentionedIn p vs ∨ MentionedIn p ws := by
  simp [MentionedIn, or_and_right, exists_or]

mutual

/-- The carriage returns and lone surrogates in the text of a value are the lone surrogates in its texts and names. -/
theorem mem_renderOnto (hp : Rare p) (depth : Nat) (after : Text) (v : Json) :
    p ∈ renderOnto depth after v ↔ MentionedIn p v.values ∧ p ≠ .char '\r' ∨ p ∈ after := by
  have hbracket : p ≠ .char '[' ∧ p ≠ .char ']' := ⟨hp.ne (by decide), hp.ne (by decide)⟩
  have hbrace : p ≠ .char '\x7b' ∧ p ≠ .char '\x7d' := ⟨hp.ne (by decide), hp.ne (by decide)⟩
  have hcolon : p ≠ .char ':' ∧ p ≠ .char ' ' := ⟨hp.ne (by decide), hp.ne (by decide)⟩
  match v with
  | .null | .bool true | .bool false =>
    rw [renderOnto, hp.mem_ofChars_append (by decide)]
    simp [values, Mentions]
  | .double x =>
    rw [renderOnto, hp.mem_ofChars_append (Numberless.carriageReturn.not_mem_double (by decide) (by decide) x)]
    simp [values, Mentions]
  | .int n => simp [renderOnto, values, Mentions, hp.not_mem_ofInt]
  | .str t => simp [renderOnto, values, Mentions, hp.mem_literal]
  | .arr [] => simp [renderOnto, values, itemValues, Mentions, hbracket]
  | .obj [] => simp [renderOnto, values, memberValues, Mentions, hbrace]
  | .arr (item :: more) =>
    have hitems := mem_renderItems hp (depth + 1) (newline depth ++ .char ']' :: after) more
    have hitem := mem_renderOnto hp (depth + 1)
      (renderItems (depth + 1) (newline depth ++ .char ']' :: after) more) item
    simp only [renderOnto, List.mem_cons, List.mem_append, hp.not_mem_newline, hbracket, hitem, hitems, values,
      itemValues, mentionedIn_cons, mentionedIn_append, Mentions, false_or, or_and_right, or_assoc]
  | .obj ((key, value) :: more) =>
    have hmembers := mem_renderMembers hp (depth + 1) (newline depth ++ .char '\x7d' :: after) more
    have hvalue := mem_renderOnto hp (depth + 1)
      (renderMembers (depth + 1) (newline depth ++ .char '\x7d' :: after) more) value
    simp only [renderOnto, List.mem_cons, List.mem_append, hp.not_mem_newline, hbrace, hcolon, hp.mem_literal, hvalue,
      hmembers, values, memberValues, mentionedIn_cons, mentionedIn_append, Mentions, false_or, exists_or,
      exists_eq_left, or_and_right, or_assoc, or_left_comm]

theorem mem_renderItems (hp : Rare p) (depth : Nat) (after : Text) (items : List Json) :
    p ∈ renderItems depth after items ↔ MentionedIn p (itemValues items) ∧ p ≠ .char '\r' ∨ p ∈ after := by
  match items with
  | [] => simp [renderItems, itemValues]
  | item :: more =>
    have hcomma : p ≠ .char ',' := hp.ne (by decide)
    have hitems := mem_renderItems hp depth after more
    have hitem := mem_renderOnto hp depth (renderItems depth after more) item
    simp only [renderItems, List.mem_cons, List.mem_append, hp.not_mem_newline, hcomma, hitem, hitems, itemValues,
      mentionedIn_append, false_or, or_and_right, or_assoc]

theorem mem_renderMembers (hp : Rare p) (depth : Nat) (after : Text) (members : Members) :
    p ∈ renderMembers depth after members ↔
      ((∃ m ∈ members, p ∈ m.1) ∨ MentionedIn p (memberValues members)) ∧ p ≠ .char '\r' ∨ p ∈ after := by
  match members with
  | [] => simp [renderMembers, memberValues]
  | (key, value) :: more =>
    have hcomma : p ≠ .char ',' := hp.ne (by decide)
    have hcolon : p ≠ .char ':' ∧ p ≠ .char ' ' := ⟨hp.ne (by decide), hp.ne (by decide)⟩
    have hmembers := mem_renderMembers hp depth after more
    have hvalue := mem_renderOnto hp depth (renderMembers depth after more) value
    simp only [renderMembers, List.mem_cons, List.mem_append, hp.not_mem_newline, hcomma, hcolon, hp.mem_literal,
      hvalue, hmembers, memberValues, mentionedIn_append, false_or, exists_or, exists_eq_left, or_and_right, or_assoc,
      or_left_comm]

end

end

theorem return_not_mem_render (v : Json) : .char '\r' ∉ v.render := by
  simp [render, mem_renderOnto rare_return]

theorem lone_mem_render {u : Fin 2048} {v : Json} : .lone u ∈ v.render ↔ MentionedIn (.lone u) v.values := by
  simp [render, mem_renderOnto (rare_lone u)]

/-- No lone surrogate is in the text of a document exactly when none is in its texts and names. -/
theorem lone_not_mem_render {v : Json} : (∀ u, .lone u ∉ v.render) ↔ v.All NoLoneSurrogate := by
  have hone : ∀ w : Json, NoLoneSurrogate w ↔ ∀ u, ¬Mentions (.lone u) w := by
    intro w
    cases w with
    | obj members =>
      simp only [NoLoneSurrogate, Mentions, not_exists, not_and]
      constructor
      · intro h u m hm
        exact h m hm u
      · intro h m hm u
        exact h u m hm
    | _ => simp [NoLoneSurrogate, Mentions]
  simp only [lone_mem_render, MentionedIn, not_exists, not_and, All, hone]
  constructor
  · intro h w hw u
    exact h u w hw
  · intro h u w hw
    exact h w hw u

end Redeclare.Json

namespace Redeclare.Utf8

/-- A text can be encoded exactly when it holds characters only. -/
theorem exists_encode_iff {t : Text} : (∃ bytes, encode t = .ok bytes) ↔ ∀ u, .lone u ∉ t := by
  constructor
  · rintro ⟨bytes, h⟩ u hu
    obtain ⟨cs, rfl, -⟩ := eq_ofChars_of_encode h
    obtain ⟨c, -, hc⟩ := List.mem_map.mp hu
    cases hc
  · intro h
    obtain ⟨cs, rfl⟩ : ∃ cs, t = Text.ofChars cs := by
      induction t with
      | nil => exact ⟨[], rfl⟩
      | cons p t ih =>
        obtain ⟨cs, rfl⟩ := ih fun u hu => h u (List.mem_cons_of_mem p hu)
        cases p with
        | char c => exact ⟨c :: cs, rfl⟩
        | lone u => exact absurd List.mem_cons_self (h u)
    exact ⟨encodeChars cs, encode_ofChars cs⟩

end Redeclare.Utf8

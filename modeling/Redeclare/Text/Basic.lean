/-!
# Text

Artifacts hold text in which half of a surrogate pair may stand alone, because a document can name such a half with an
escape. So text is a list of code points, each a character or a lone surrogate. What is read from a file holds
characters only (`List Char`); lone surrogates arise inside string values.
-/

namespace Redeclare

/-- A code point: a character, or the surrogate `0xD800 + u` without its partner. -/
inductive Point where
  | char (c : Char)
  | lone (u : Fin 2048)
deriving DecidableEq, Inhabited

/-- Text is a list of code points. -/
abbrev Text := List Point

namespace Point

/-- The number of a code point. -/
def code : Point → Nat
  | .char c => c.toNat
  | .lone u => 0xD800 + u.val

/-- The code point of a number: the numbers of surrogates give lone surrogates. -/
def ofCode (n : Nat) : Point :=
  if h : 0xD800 ≤ n ∧ n < 0xE000 then .lone ⟨n - 0xD800, by omega⟩ else .char (Char.ofNat n)

end Point

/-! ## Characters as text -/

namespace Text

/-- Characters as text. -/
def ofChars (cs : List Char) : Text := cs.map .char

/-- A string as text. -/
def ofString (s : String) : Text := ofChars s.toList

instance : Coe String Text := ⟨ofString⟩

/-- The characters of a text, unless it holds a lone surrogate. -/
def chars? : Text → Option (List Char)
  | [] => some []
  | .char c :: rest => (chars? rest).map (c :: ·)
  | .lone _ :: _ => none

@[simp] theorem ofChars_nil : ofChars [] = [] := rfl

@[simp] theorem ofChars_cons (c : Char) (cs : List Char) : ofChars (c :: cs) = .char c :: ofChars cs := rfl

@[simp] theorem ofChars_append (a b : List Char) : ofChars (a ++ b) = ofChars a ++ ofChars b := by simp [ofChars]

@[simp] theorem chars?_ofChars (cs : List Char) : chars? (ofChars cs) = some cs := by
  induction cs with
  | nil => rfl
  | cons c cs ih => simp [chars?, ih]

/-! ## Numbers as text -/

/-- A natural number in decimal digits. -/
def ofNat (n : Nat) : Text := ofChars (Nat.toDigits 10 n)

/-- A whole number in decimal digits, with a minus sign below zero. -/
def ofInt : Int → Text
  | .ofNat n => ofNat n
  | .negSucc n => .char '-' :: ofNat (n + 1)

/-- A number in lower-case hexadecimal, filled with zeros up to `width` digits. -/
def ofHex (width n : Nat) : Text :=
  let digits := Nat.toDigits 16 n
  ofChars (List.replicate (width - digits.length) '0' ++ digits)

/-! ## Joining -/

/-- The texts one after another with `separator` between neighbours. -/
def join (separator : Text) : List Text → Text
  | [] => []
  | [t] => t
  | t :: u :: rest => t ++ separator ++ join separator (u :: rest)

end Text

end Redeclare

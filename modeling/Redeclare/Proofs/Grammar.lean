import Redeclare.Proofs.Nearest
import Redeclare.Proofs.Numbers

/-!
# The grammar of JSON

Which texts are documents, and which document each of them is, said without a reader: every production is a rule that
puts a text together from the texts of its parts, and the value from their values. The rules leave no choice to whoever
reads: a repeated name keeps its first place and its last value, the two halves of a surrogate pair that stand side by
side as escapes are one character and a half without its partner stays one, a number without a point and without an
exponent is exact, and any other is the double that it rounds to.
-/

namespace Redeclare.Grammar

open Json (sign maxDigits digitsValue)

/-! ## Blanks -/

/-- Blanks: spaces, tabs, line feeds and carriage returns. -/
def Blanks (cs : List Char) : Prop := ∀ c ∈ cs, c = ' ' ∨ c = '\t' ∨ c = '\n' ∨ c = '\r'

/-- A character that gives a document its structure, between blanks. -/
inductive Structural (c : Char) : List Char → Prop
  | mk {before after : List Char} : Blanks before → Blanks after → Structural c (before ++ c :: after)

/-! ## Strings -/

/-- A hexadecimal digit, in either case, and its value. -/
def HexDigit (c : Char) (n : Nat) : Prop := n < 16 ∧ (c = Nat.digitChar n ∨ c = (Nat.digitChar n).toUpper)

/-- Four hexadecimal digits and their value. -/
inductive HexDigits : List Char → Nat → Prop
  | mk {a b c d : Char} {k l m n : Nat} : HexDigit a k → HexDigit b l → HexDigit c m → HexDigit d n →
      HexDigits [a, b, c, d] (((k * 16 + l) * 16 + m) * 16 + n)

/-- The letters that may stand behind a backslash, and the characters that they make. -/
def letters : List (Char × Char) :=
  [('"', '"'), ('\\', '\\'), ('/', '/'), ('b', '\x08'), ('f', '\x0c'), ('n', '\n'), ('r', '\r'), ('t', '\t')]

/-- The number of the first half of a surrogate pair. -/
def IsHigh (n : Nat) : Prop := 0xD800 ≤ n ∧ n < 0xDC00

/-- The number of the second half of a surrogate pair. -/
def IsLow (n : Nat) : Prop := 0xDC00 ≤ n ∧ n < 0xE000

/-- A text that goes on with an escape for the second half of a surrogate pair. -/
def LowAhead (cs : List Char) : Prop :=
  ∃ digits n rest, cs = '\\' :: 'u' :: digits ++ rest ∧ HexDigits digits n ∧ IsLow n

/-- What stands between the quotes of a string, and the text that it denotes. -/
inductive Content : List Char → Text → Prop
  | nil : Content [] []
  | unescaped {c : Char} {cs : List Char} {t : Text} : 0x20 ≤ c.toNat → c ≠ '"' → c ≠ '\\' → Content cs t →
      Content (c :: cs) (.char c :: t)
  | letter {c d : Char} {cs : List Char} {t : Text} : (c, d) ∈ letters → Content cs t →
      Content ('\\' :: c :: cs) (.char d :: t)
  | code {digits cs : List Char} {n : Nat} {t : Text} : HexDigits digits n → ¬IsHigh n → ¬IsLow n → Content cs t →
      Content ('\\' :: 'u' :: digits ++ cs) (.char (Char.ofNat n) :: t)
  | pair {high low cs : List Char} {m n : Nat} {t : Text} : HexDigits high m → IsHigh m → HexDigits low n → IsLow n →
      Content cs t →
      Content ('\\' :: 'u' :: high ++ ('\\' :: 'u' :: low ++ cs))
        (.char (Char.ofNat (0x10000 + (m - 0xD800) * 0x400 + (n - 0xDC00))) :: t)
  | half {digits cs : List Char} {u : Fin 2048} {t : Text} : HexDigits digits (0xD800 + u) →
      ¬(IsHigh (0xD800 + u) ∧ LowAhead cs) → Content cs t → Content ('\\' :: 'u' :: digits ++ cs) (.lone u :: t)

/-- A string between its quotes. -/
inductive Quoted : List Char → Text → Prop
  | mk {cs : List Char} {t : Text} : Content cs t → Quoted ('"' :: cs ++ ['"']) t

/-! ## Numbers -/

/-- One digit or more. -/
def Digits (ds : List Char) : Prop := ds ≠ [] ∧ ∀ c ∈ ds, c.isDigit = true

/-- The digits of a whole number: a zero, or digits that do not begin with one. -/
def Whole (ds : List Char) : Prop := Digits ds ∧ (ds.head? = some '0' → ds = ['0'])

/-- A fraction, which may be missing, and its digits. -/
inductive Fraction : List Char → List Char → Prop
  | missing : Fraction [] []
  | point {ds : List Char} : Digits ds → Fraction ('.' :: ds) ds

/-- An exponent, which may be missing, and its value. -/
inductive Exponent : List Char → Int → Prop
  | missing : Exponent [] 0
  | plain {letter : Char} {ds : List Char} : letter = 'e' ∨ letter = 'E' → Digits ds →
      Exponent (letter :: ds) (digitsValue ds)
  | plus {letter : Char} {ds : List Char} : letter = 'e' ∨ letter = 'E' → Digits ds →
      Exponent (letter :: '+' :: ds) (digitsValue ds)
  | minus {letter : Char} {ds : List Char} : letter = 'e' ∨ letter = 'E' → Digits ds →
      Exponent (letter :: '-' :: ds) (-(digitsValue ds : Int))

/-- A number and its value. Without a fraction and an exponent it is whole and exact, and has not too many digits; with
one of them it is the double that it rounds to. -/
inductive Number : List Char → Json → Prop
  | whole (negative : Bool) {ds : List Char} : Whole ds → ds.length ≤ maxDigits →
      Number (sign negative ++ ds) (.int (if negative then -(digitsValue ds : Int) else digitsValue ds))
  | double (negative : Bool) {ds fraction fs exponent : List Char} {n : Int} {x : Double} : Whole ds →
      Fraction fraction fs → Exponent exponent n → fraction ++ exponent ≠ [] →
      Double.Rounds negative ((digitsValue ds + digitsValue fs / 10 ^ fs.length) * 10 ^ n) x →
      Number (sign negative ++ ds ++ fraction ++ exponent) (.double x)

/-! ## Values -/

/-- The members that are kept of those that were written: each name where it stands first, with the value that it has
last. -/
structure Kept (written members : List (Text × Json)) : Prop where
  names : members.map (·.1) = (written.map (·.1)).eraseDups
  last : ∀ m ∈ members, ∃ before after, written = before ++ m :: after ∧ m.1 ∉ after.map (·.1)

mutual

/-- A text and the value that it denotes. -/
inductive Value : List Char → Json → Prop
  | null : Value ['n', 'u', 'l', 'l'] .null
  | yes : Value ['t', 'r', 'u', 'e'] (.bool true)
  | no : Value ['f', 'a', 'l', 's', 'e'] (.bool false)
  | number {cs : List Char} {v : Json} : Number cs v → Value cs v
  | str {cs : List Char} {t : Text} : Quoted cs t → Value cs (.str t)
  | emptyArr {opening closing : List Char} : Structural '[' opening → Structural ']' closing →
      Value (opening ++ closing) (.arr [])
  | arr {opening cs closing : List Char} {items : List Json} : Structural '[' opening → Items cs items →
      Structural ']' closing → Value (opening ++ cs ++ closing) (.arr items)
  | emptyObj {opening closing : List Char} : Structural '\x7b' opening → Structural '\x7d' closing →
      Value (opening ++ closing) (.obj [])
  | obj {opening cs closing : List Char} {written members : List (Text × Json)} : Structural '\x7b' opening →
      Pairs cs written → Structural '\x7d' closing → Kept written members →
      Value (opening ++ cs ++ closing) (.obj members)

/-- Values with commas between them. -/
inductive Items : List Char → List Json → Prop
  | one {cs : List Char} {v : Json} : Value cs v → Items cs [v]
  | more {cs comma rest : List Char} {v : Json} {items : List Json} : Value cs v → Structural ',' comma →
      Items rest items → Items (cs ++ comma ++ rest) (v :: items)

/-- Names with their values, with commas between them. -/
inductive Pairs : List Char → List (Text × Json) → Prop
  | one {name colon cs : List Char} {key : Text} {v : Json} : Quoted name key → Structural ':' colon → Value cs v →
      Pairs (name ++ colon ++ cs) [(key, v)]
  | more {name colon cs comma rest : List Char} {key : Text} {v : Json} {written : List (Text × Json)} :
      Quoted name key → Structural ':' colon → Value cs v → Structural ',' comma → Pairs rest written →
      Pairs (name ++ colon ++ cs ++ comma ++ rest) ((key, v) :: written)

end

/-- A document: a value between blanks. -/
inductive Document : List Char → Json → Prop
  | mk {before cs after : List Char} {v : Json} : Blanks before → Value cs v → Blanks after →
      Document (before ++ cs ++ after) v

/-- What may stand in a document in front of a value: blanks, or the part of an array or object in front of one of its
values, and again what may stand there. -/
inductive Front : List Char → Prop
  | blanks {cs : List Char} : Blanks cs → Front cs
  | firstItem {opening front : List Char} : Structural '[' opening → Front front → Front (opening ++ front)
  | nextItem {opening cs comma front : List Char} {items : List Json} : Structural '[' opening → Items cs items →
      Structural ',' comma → Front front → Front (opening ++ (cs ++ (comma ++ front)))
  | firstMember {opening name colon front : List Char} {key : Text} : Structural '\x7b' opening → Quoted name key →
      Structural ':' colon → Front front → Front (opening ++ (name ++ (colon ++ front)))
  | nextMember {opening cs comma name colon front : List Char} {written : List (Text × Json)} {key : Text} :
      Structural '\x7b' opening → Pairs cs written → Structural ',' comma → Quoted name key → Structural ':' colon →
      Front front → Front (opening ++ (cs ++ (comma ++ (name ++ (colon ++ front)))))

end Redeclare.Grammar

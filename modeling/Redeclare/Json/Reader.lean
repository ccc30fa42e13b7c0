import Redeclare.Json.Basic
import Redeclare.Json.Error

/-!
# Reading documents

A reader for JSON that takes a value from the front of a text and returns what is left. A failure carries what was left
at the place it reports, so that the place is known once the whole text is.
-/

namespace Redeclare.Json

/-- A failure with what was left of the text at the place it is reported for. -/
inductive Stop where
  | malformed (problem : Problem) (rest : List Char)
  | constant (name : List Char)
  | tooManyDigits (count : Nat)
deriving DecidableEq

/-- What was taken from the front of a text, and what is left. -/
abbrev Taken (α : Type) := Except Stop (α × List Char)

/-- What was taken, made into something else. -/
def Taken.as {α β : Type} (f : α → β) : Taken α → Taken β
  | .ok (a, rest) => .ok (f a, rest)
  | .error e => .error e

/-! ## Blanks -/

/-- Space, tab, line feed and carriage return. -/
def isBlank (c : Char) : Bool := c == ' ' || c == '\t' || c == '\n' || c == '\r'

/-- The text without the blanks at its front. -/
def skipBlanks (cs : List Char) : List Char := cs.dropWhile isBlank

/-! ## Strings -/

/-- The value of a hexadecimal digit. -/
def hexValue? (c : Char) : Option Nat :=
  if '0' ≤ c ∧ c ≤ '9' then some (c.toNat - '0'.toNat)
  else if 'a' ≤ c ∧ c ≤ 'f' then some (c.toNat - 'a'.toNat + 10)
  else if 'A' ≤ c ∧ c ≤ 'F' then some (c.toNat - 'A'.toNat + 10)
  else none

/-- The value of four hexadecimal digits. -/
def hexValue4? (a b c d : Char) : Option Nat :=
  match hexValue? a, hexValue? b, hexValue? c, hexValue? d with
  | some a, some b, some c, some d => some (a * 0x1000 + b * 0x100 + c * 0x10 + d)
  | _, _, _, _ => none

/-- The character that a backslash and one character stand for. -/
def unescape? : Char → Option Char
  | '"' => some '"'
  | '\\' => some '\\'
  | '/' => some '/'
  | 'b' => some '\x08'
  | 'f' => some '\x0c'
  | 'n' => some '\n'
  | 'r' => some '\r'
  | 't' => some '\t'
  | _ => none

/-- A code point in front of a text. The first half of a surrogate pair joins with the second into one character. -/
def attach (p : Point) (t : Text) : Text :=
  match p, t with
  | .lone u, .lone v :: rest =>
    if u.val < 0x400 ∧ 0x400 ≤ v.val then .char (Char.ofNat (0x10000 + u.val * 0x400 + (v.val - 0x400))) :: rest
    else p :: t
  | _, _ => p :: t

/-- A code point in front of what is taken next. -/
def attachTo (p : Point) : Taken Text → Taken Text
  | .ok (t, rest) => .ok (attach p t, rest)
  | .error e => .error e

/-- The content of a string literal up to its closing quote; `literal` is the text from the opening quote on. A `\u`
escape is recognised only if something follows its four digits. -/
def takeString (literal : List Char) : List Char → Taken Text
  | [] => .error (.malformed .unterminated literal)
  | '"' :: rest => .ok ([], rest)
  | '\\' :: [] => .error (.malformed .unterminated literal)
  | '\\' :: 'u' :: digits =>
    match digits with
    | a :: b :: c :: d :: rest =>
      match hexValue4? a b c d with
      | some n =>
        if rest.isEmpty then .error (.malformed .unicodeEscape ('u' :: digits))
        else attachTo (Point.ofCode n) (takeString literal rest)
      | none => .error (.malformed .unicodeEscape ('u' :: digits))
    | _ => .error (.malformed .unicodeEscape ('u' :: digits))
  | '\\' :: c :: rest =>
    match unescape? c with
    | some d => attachTo (.char d) (takeString literal rest)
    | none => .error (.malformed .escape ('\\' :: c :: rest))
  | c :: rest =>
    if c.toNat < 0x20 then .error (.malformed .control (c :: rest)) else attachTo (.char c) (takeString literal rest)

/-! ## Numbers -/

/-- The digits at the front of a text. -/
def frontDigits (cs : List Char) : List Char := cs.takeWhile Char.isDigit

/-- The text behind the digits at its front. -/
def afterDigits (cs : List Char) : List Char := cs.dropWhile Char.isDigit

/-- The digits of a whole number at the front of a text: a zero, or digits that do not begin with one. -/
def takeWhole? : List Char → Option (List Char × List Char)
  | [] => none
  | c :: rest =>
    if c = '0' then some (['0'], rest)
    else if c.isDigit then some (c :: frontDigits rest, afterDigits rest)
    else none

/-- The digits of a fraction at the front of a text: a point and at least one digit. -/
def takeFraction? : List Char → Option (List Char × List Char)
  | '.' :: rest => if frontDigits rest = [] then none else some (frontDigits rest, afterDigits rest)
  | _ => none

/-- The number that digits denote. -/
def digitsValue (digits : List Char) : Nat := Nat.ofDigitChars 10 digits 0

/-- An exponent at the front of a text: the letter, a sign or none, and at least one digit. -/
def takeExponent? : List Char → Option (Int × List Char)
  | [] => none
  | c :: rest =>
    if c = 'e' ∨ c = 'E' then
      let (negative, body) := match rest with
        | '-' :: body => (true, body)
        | '+' :: body => (false, body)
        | body => (false, body)
      let digits := frontDigits body
      if digits = [] then none
      else some (if negative then -(digitsValue digits : Int) else digitsValue digits, afterDigits body)
    else none

/-- The number whose sign and whole digits were taken. With a fraction or an exponent it is a double. -/
def takeRest (negative : Bool) (whole rest : List Char) : Taken Json :=
  let (fraction, rest) := (takeFraction? rest).getD ([], rest)
  match takeExponent? rest with
  | some (exponent, rest) =>
    .ok (.double (.ofDecimal negative (digitsValue (whole ++ fraction)) (exponent - fraction.length)), rest)
  | none =>
    if fraction = [] then
      if maxDigits < whole.length then .error (.tooManyDigits whole.length)
      else .ok (.int (if negative then -(digitsValue whole : Int) else digitsValue whole), rest)
    else .ok (.double (.ofDecimal negative (digitsValue (whole ++ fraction)) (-(fraction.length : Int))), rest)

/-- A number at the front of a text. -/
def takeNumber (cs : List Char) : Taken Json :=
  let (negative, body) := match cs with
    | '-' :: body => (true, body)
    | body => (false, body)
  match takeWhole? body with
  | some (whole, rest) => takeRest negative whole rest
  | none => .error (.malformed .value cs)

/-! ## Words -/

/-- The words that are values. -/
def words : List (List Char × Json) :=
  [(['n', 'u', 'l', 'l'], .null), (['t', 'r', 'u', 'e'], .bool true), (['f', 'a', 'l', 's', 'e'], .bool false)]

/-- The names of numbers that JSON does not have. -/
def constants : List (List Char) :=
  [['N', 'a', 'N'], ['I', 'n', 'f', 'i', 'n', 'i', 't', 'y'], ['-', 'I', 'n', 'f', 'i', 'n', 'i', 't', 'y']]

/-- A word or a number at the front of a text. -/
def takeScalar (cs : List Char) : Taken Json :=
  match words.find? fun (word, _) => word.isPrefixOf cs with
  | some (word, value) => .ok (value, cs.drop word.length)
  | none =>
    match constants.find? fun name => name.isPrefixOf cs with
    | some name => .error (.constant name)
    | none => takeNumber cs

/-! ## Values -/

mutual

/-- A value at the front of a text. `fuel` bounds the depth of the calls; twice the length of the text is enough. -/
def takeValue : Nat → List Char → Taken Json
  | 0, cs => .error (.malformed .value cs)
  | _ + 1, [] => .error (.malformed .value [])
  | fuel + 1, c :: rest =>
    if c = '"' then Taken.as .str (takeString (c :: rest) rest)
    else if c = '\x7b' then
      match skipBlanks rest with
      | '\x7d' :: rest => .ok (.obj [], rest)
      | body => Taken.as (fun pairs => .obj (Members.ofPairs pairs)) (takeMembers fuel body)
    else if c = '[' then
      match skipBlanks rest with
      | ']' :: rest => .ok (.arr [], rest)
      | body => Taken.as .arr (takeItems fuel body)
    else takeScalar (c :: rest)

/-- The members of an object from the first or next name on, up to and with the closing brace. -/
def takeMembers : Nat → List Char → Taken (List (Text × Json))
  | 0, cs => .error (.malformed .name cs)
  | _ + 1, [] => .error (.malformed .name [])
  | fuel + 1, c :: rest =>
    if c = '"' then
      match takeString (c :: rest) rest with
      | .error e => .error e
      | .ok (key, rest) =>
        match skipBlanks rest with
        | ':' :: rest =>
          match takeValue fuel (skipBlanks rest) with
          | .error e => .error e
          | .ok (value, rest) =>
            match skipBlanks rest with
            | '\x7d' :: rest => .ok ([(key, value)], rest)
            | ',' :: rest => Taken.as ((key, value) :: ·) (takeMembers fuel (skipBlanks rest))
            | rest => .error (.malformed .comma rest)
        | rest => .error (.malformed .colon rest)
    else .error (.malformed .name (c :: rest))

/-- The items of an array from the first or next item on, up to and with the closing bracket. -/
def takeItems : Nat → List Char → Taken (List Json)
  | 0, cs => .error (.malformed .value cs)
  | fuel + 1, cs =>
    match takeValue fuel cs with
    | .error e => .error e
    | .ok (item, rest) =>
      match skipBlanks rest with
      | ']' :: rest => .ok ([item], rest)
      | ',' :: rest => Taken.as (item :: ·) (takeItems fuel (skipBlanks rest))
      | rest => .error (.malformed .comma rest)

end

/-! ## Documents -/

/-- A document: one value with blanks around it, and no byte order mark before it. -/
def takeDocument (cs : List Char) : Except Stop Json :=
  if cs.head? = some '\uFEFF' then .error (.malformed .byteOrderMark cs)
  else
    match takeValue (2 * cs.length + 2) (skipBlanks cs) with
    | .error e => .error e
    | .ok (value, rest) =>
      match skipBlanks rest with
      | [] => .ok value
      | rest => .error (.malformed .extra rest)

/-- The cause of a failure in the text `cs`, with its place. -/
def Stop.toReadError (cs : List Char) : Stop → ReadError
  | .malformed problem rest => .malformed problem (.after (cs.take (cs.length - rest.length)))
  | .constant name => .constant name
  | .tooManyDigits count => .tooManyDigits count

/-- The document that a text denotes. -/
def read (cs : List Char) : Except ReadError Json := (takeDocument cs).mapError (Stop.toReadError cs)

end Redeclare.Json

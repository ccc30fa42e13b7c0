import Redeclare.Text.Basic
import Redeclare.Text.Lines

/-!
# Why a text is no document

Each cause names what the reader missed, and the place where it missed it.
-/

namespace Redeclare.Json

/-- What the reader missed or could not accept. -/
inductive Problem where
  | value
  | name
  | colon
  | comma
  | extra
  | unterminated
  | control
  | escape
  | unicodeEscape
  | byteOrderMark
deriving DecidableEq, Repr

/-- Why a text is no document. A constant beyond JSON and a whole number of too many digits are not malformed: they are
recognised and refused. -/
inductive ReadError where
  | malformed (problem : Problem) (place : Lines.Place)
  | constant (name : List Char)
  | tooManyDigits (count : Nat)
deriving DecidableEq

/-- The most digits a whole number may have. -/
def maxDigits : Nat := 4300

namespace Problem

/-- The wording of a problem. -/
def message : Problem → Text
  | .value => Text.ofString "Expecting value"
  | .name => Text.ofString "Expecting property name enclosed in double quotes"
  | .colon => Text.ofString "Expecting ':' delimiter"
  | .comma => Text.ofString "Expecting ',' delimiter"
  | .extra => Text.ofString "Extra data"
  | .unterminated => Text.ofString "Unterminated string starting at"
  | .control => Text.ofString "Invalid control character at"
  | .escape => Text.ofString "Invalid \\escape"
  | .unicodeEscape => Text.ofString "Invalid \\uXXXX escape"
  | .byteOrderMark => Text.ofString "Unexpected UTF-8 BOM (decode using utf-8-sig)"

end Problem

namespace ReadError

/-- The wording of a cause. -/
def message : ReadError → Text
  | .malformed problem place =>
    problem.message ++ Text.ofString ": line " ++ Text.ofNat place.line ++ Text.ofString " column " ++
      Text.ofNat place.column ++ Text.ofString " (char " ++ Text.ofNat place.offset ++ Text.ofString ")"
  | .constant name => Text.ofString "Invalid JSON constant: " ++ Text.ofChars name
  | .tooManyDigits count =>
    Text.ofString "Exceeds the limit (" ++ Text.ofNat maxDigits ++
      Text.ofString " digits) for integer string conversion: value has " ++ Text.ofNat count ++
      Text.ofString " digits; use sys.set_int_max_str_digits() to increase the limit"

end ReadError

end Redeclare.Json

import Redeclare.Text.Printable

/-!
# Quoted text

The form in which messages show a text as a value: between quotes, with escapes for what would not be seen. The result
holds printable characters only, whatever the text holds.
-/

namespace Redeclare.Quoted

/-- Single quotes, unless the text holds one and no double quote. -/
def quoteFor (t : Text) : Char :=
  if t.contains (.char '\'') && !t.contains (.char '"') then '"' else '\''

/-- The escape of a code point by its number, as short as the number allows. -/
def escape (code : Nat) : Text :=
  if code < 0x100 then Text.ofString "\\x" ++ Text.ofHex 2 code
  else if code < 0x10000 then Text.ofString "\\u" ++ Text.ofHex 4 code
  else Text.ofString "\\U" ++ Text.ofHex 8 code

/-- A code point between quotes of the kind `quote`. -/
def point (quote : Char) (p : Point) : Text :=
  if p = .char '\\' then Text.ofString "\\\\"
  else if p = .char quote then [.char '\\', p]
  else if p = .char '\n' then Text.ofString "\\n"
  else if p = .char '\r' then Text.ofString "\\r"
  else if p = .char '\t' then Text.ofString "\\t"
  else if p.isPrintable then [p]
  else escape p.code

end Redeclare.Quoted

namespace Redeclare.Text

/-- A text between quotes, with escapes. -/
def quoted (t : Text) : Text :=
  let quote := Quoted.quoteFor t
  .char quote :: t.flatMap (Quoted.point quote) ++ [.char quote]

end Redeclare.Text

import Redeclare.Double.Layout
import Redeclare.Json.Basic
import Redeclare.Text.Quoted

/-!
# Values in messages

The form in which a message shows a value: text as it is, everything else on one line, with text inside arrays and
objects between quotes.
-/

namespace Redeclare.Json

mutual

/-- A value on one line, text between quotes. -/
def shown : Json → Text
  | .null => Text.ofString "None"
  | .bool true => Text.ofString "True"
  | .bool false => Text.ofString "False"
  | .int n => Text.ofInt n
  | .double x => Text.ofChars (NumberLayout.display.double x)
  | .str t => t.quoted
  | .arr [] => Text.ofString "[]"
  | .arr (item :: rest) => .char '[' :: (shown item ++ shownItems rest ++ [.char ']'])
  | .obj [] => Text.ofChars ['\x7b', '\x7d']
  | .obj ((key, value) :: rest) =>
    .char '\x7b' :: (key.quoted ++ Text.ofString ": " ++ shown value ++ shownMembers rest ++ [.char '\x7d'])

/-- The items after the first. -/
def shownItems : List Json → Text
  | [] => []
  | item :: rest => Text.ofString ", " ++ shown item ++ shownItems rest

/-- The members after the first. -/
def shownMembers : List (Text × Json) → Text
  | [] => []
  | (key, value) :: rest => Text.ofString ", " ++ key.quoted ++ Text.ofString ": " ++ shown value ++ shownMembers rest

end

/-- A value in a message: text as it is, all else as `shown`. -/
def display : Json → Text
  | .str t => t
  | value => value.shown

end Redeclare.Json

import Redeclare.Double.Layout
import Redeclare.Json.Basic
import Redeclare.Json.Error

/-!
# Documents as text

The layout in which documents are written: one member or item a line, two spaces deeper at each level, empty objects and
arrays in two characters, no line end after the last line. Only quotes, backslashes and controls are escaped.
-/

namespace Redeclare.Json

/-- A code point inside a string literal. -/
def escaped (p : Point) : Text :=
  if p = .char '"' then [.char '\\', .char '"']
  else if p = .char '\\' then [.char '\\', .char '\\']
  else if p = .char '\n' then [.char '\\', .char 'n']
  else if p = .char '\r' then [.char '\\', .char 'r']
  else if p = .char '\t' then [.char '\\', .char 't']
  else if p = .char '\x0c' then [.char '\\', .char 'f']
  else if p = .char '\x08' then [.char '\\', .char 'b']
  else if p.code < 0x20 then .char '\\' :: .char 'u' :: Text.ofHex 4 p.code
  else [p]

/-- A string literal. -/
def literal (t : Text) : Text := .char '"' :: t.flatMap escaped ++ [.char '"']

/-- The start of a line at a depth. -/
def newline (depth : Nat) : Text := .char '\n' :: List.replicate (2 * depth) (.char ' ')

mutual

/-- The text `after`, with a value in front of it whose own line stands at `depth`. -/
def renderOnto (depth : Nat) (after : Text) : Json → Text
  | .null => Text.ofChars ['n', 'u', 'l', 'l'] ++ after
  | .bool true => Text.ofChars ['t', 'r', 'u', 'e'] ++ after
  | .bool false => Text.ofChars ['f', 'a', 'l', 's', 'e'] ++ after
  | .int n => Text.ofInt n ++ after
  | .double x => Text.ofChars (NumberLayout.document.double x) ++ after
  | .str t => literal t ++ after
  | .arr [] => .char '[' :: .char ']' :: after
  | .arr (item :: rest) =>
    .char '[' :: (newline (depth + 1) ++
      renderOnto (depth + 1) (renderItems (depth + 1) (newline depth ++ .char ']' :: after) rest) item)
  | .obj [] => .char '\x7b' :: .char '\x7d' :: after
  | .obj ((key, value) :: rest) =>
    .char '\x7b' :: (newline (depth + 1) ++ (literal key ++ .char ':' :: .char ' ' ::
      renderOnto (depth + 1) (renderMembers (depth + 1) (newline depth ++ .char '\x7d' :: after) rest) value))

/-- The text `after`, with the items after the first in front of it, each after a comma on a line of its own. -/
def renderItems (depth : Nat) (after : Text) : List Json → Text
  | [] => after
  | item :: rest => .char ',' :: (newline depth ++ renderOnto depth (renderItems depth after rest) item)

/-- The text `after`, with the members after the first in front of it, each after a comma on a line of its own. -/
def renderMembers (depth : Nat) (after : Text) : List (Text × Json) → Text
  | [] => after
  | (key, value) :: rest =>
    .char ',' :: (newline depth ++ (literal key ++ .char ':' :: .char ' ' ::
      renderOnto depth (renderMembers depth after rest) value))

end

/-- The text of a document. -/
def render (document : Json) : Text := renderOnto 0 [] document

/-! ## What has no text -/

mutual

/-- A value holds a whole number of more digits than are written. -/
def hasLongWhole : Json → Bool
  | .int n => decide (maxDigits < (Nat.toDigits 10 n.natAbs).length)
  | .arr items => itemsHaveLongWhole items
  | .obj members => membersHaveLongWhole members
  | _ => false

@[inherit_doc hasLongWhole]
def itemsHaveLongWhole : List Json → Bool
  | [] => false
  | item :: rest => hasLongWhole item || itemsHaveLongWhole rest

@[inherit_doc hasLongWhole]
def membersHaveLongWhole : List (Text × Json) → Bool
  | [] => false
  | (_, value) :: rest => hasLongWhole value || membersHaveLongWhole rest

end

/-! ## What stands after a value plays no part -/

mutual

theorem renderOnto_append (depth : Nat) (a b : Text) (v : Json) :
    renderOnto depth (a ++ b) v = renderOnto depth a v ++ b := by
  match v with
  | .null | .bool true | .bool false | .int _ | .double _ | .str _ | .arr [] | .obj [] => simp [renderOnto]
  | .arr (item :: rest) =>
    have h := renderItems_append (depth + 1) (newline depth ++ .char ']' :: a) b rest
    rw [List.append_assoc, List.cons_append] at h
    rw [renderOnto, renderOnto, h, renderOnto_append (depth + 1) _ b item]
    simp
  | .obj ((key, value) :: rest) =>
    have h := renderMembers_append (depth + 1) (newline depth ++ .char '\x7d' :: a) b rest
    rw [List.append_assoc, List.cons_append] at h
    rw [renderOnto, renderOnto, h, renderOnto_append (depth + 1) _ b value]
    simp

theorem renderItems_append (depth : Nat) (a b : Text) (items : List Json) :
    renderItems depth (a ++ b) items = renderItems depth a items ++ b := by
  match items with
  | [] => simp [renderItems]
  | item :: rest =>
    rw [renderItems, renderItems, renderItems_append depth a b rest, renderOnto_append depth _ b item]
    simp

theorem renderMembers_append (depth : Nat) (a b : Text) (members : List (Text × Json)) :
    renderMembers depth (a ++ b) members = renderMembers depth a members ++ b := by
  match members with
  | [] => simp [renderMembers]
  | (key, value) :: rest =>
    rw [renderMembers, renderMembers, renderMembers_append depth a b rest, renderOnto_append depth _ b value]
    simp

end

end Redeclare.Json

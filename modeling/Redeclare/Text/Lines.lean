/-!
# Lines

Line ends are made alike before a text is read, and a place in the text is told by line and column.
-/

namespace Redeclare.Lines

/-- Every line end becomes a line feed: a carriage return, with the line feed after it if there is one. -/
def unify : List Char → List Char
  | '\r' :: '\n' :: rest => '\n' :: unify rest
  | '\r' :: rest => '\n' :: unify rest
  | c :: rest => c :: unify rest
  | [] => []

/-- A place in a text: its line and column from one, and its offset from zero. -/
structure Place where
  line : Nat
  column : Nat
  offset : Nat
deriving DecidableEq, Repr

/-- The place right after the characters `before`. -/
def Place.after (before : List Char) : Place where
  line := before.count '\n' + 1
  column := (before.reverse.takeWhile (· != '\n')).length + 1
  offset := before.length

end Redeclare.Lines

import Redeclare.Text.Basic
import Redeclare.Text.Lines
import Redeclare.Text.Space

/-!
# Files of variables

A file of variables has a binding a line, such as `export NAME = "value" # comment`. Values may be quoted, and refer to
variables as `$` and a name in braces, with or without a default. A line that is no binding is skipped.
-/

namespace Redeclare.EnvFile

/-- A name and the value it is bound to; a name alone has none. -/
structure Binding where
  name : List Char
  value : Option (List Char)
deriving DecidableEq

/-! ## Values -/

/-- The character that a backslash and one character stand for between single quotes. -/
def singleEscape? : Char → Option Char
  | '\\' => some '\\'
  | '\'' => some '\''
  | _ => none

/-- The character that a backslash and one character stand for between double quotes. -/
def doubleEscape? : Char → Option Char
  | '\\' => some '\\'
  | '\'' => some '\''
  | '"' => some '"'
  | 'a' => some '\x07'
  | 'b' => some '\x08'
  | 'f' => some '\x0c'
  | 'n' => some '\n'
  | 'r' => some '\r'
  | 't' => some '\t'
  | 'v' => some '\x0b'
  | _ => none

/-- A quoted value with its escapes replaced; `escaped` says that a backslash stands before the text. -/
def unescape (escape? : Char → Option Char) (escaped : Bool) : List Char → List Char
  | [] => if escaped then ['\\'] else []
  | c :: rest =>
    if escaped then
      match escape? c with
      | some d => d :: unescape escape? false rest
      | none => '\\' :: c :: unescape escape? false rest
    else if c = '\\' then unescape escape? true rest
    else c :: unescape escape? false rest

/-- The content of a quoted value and what comes after its closing quote; `escaped` says that a backslash stands before
the text. What stands after a backslash belongs to the content. -/
def takeQuoted? (quote : Char) (escaped : Bool) : List Char → Option (List Char × List Char)
  | [] => none
  | c :: rest =>
    if !escaped && c == quote then some ([], rest)
    else (takeQuoted? quote (!escaped && c == '\\') rest).map fun (content, left) => (c :: content, left)

/-- A line up to a comment, which white space and a number sign begin. -/
def beforeComment : List Char → List Char
  | [] => []
  | c :: rest => if isSpace c && (rest.dropWhile isSpace).head? == some '#' then [] else c :: beforeComment rest

/-- A text without the white space at its ends. -/
def trim (cs : List Char) : List Char := ((cs.dropWhile isSpace).reverse.dropWhile isSpace).reverse

/-- Whether a character belongs to the line that it stands in. -/
def inLine (c : Char) : Bool := c != '\n' && c != '\r'

/-- The value in a text that comes after an equals sign, and what comes after the value; nothing for an open quote. A
value without quotes reaches up to a comment, which may leave nothing of it. -/
def takeValue? (cs : List Char) : Option (List Char × List Char) :=
  let plain := (trim (beforeComment (cs.takeWhile inLine)), cs.dropWhile inLine)
  match cs.dropWhile isInlineSpace with
  | [] => some plain
  | c :: rest =>
    if c = '\'' then
      (takeQuoted? c false rest).map fun (content, left) => (unescape singleEscape? false content, left)
    else if c = '"' then
      (takeQuoted? c false rest).map fun (content, left) => (unescape doubleEscape? false content, left)
    else some plain

/-! ## Bindings -/

/-- A text without the word that may stand before a binding. -/
def skipExport (cs : List Char) : List Char :=
  let word := ['e', 'x', 'p', 'o', 'r', 't']
  let rest := cs.drop word.length
  if word.isPrefixOf cs && (rest.head?.any isInlineSpace) then rest.dropWhile isInlineSpace else cs

/-- A name and what comes after it: between single quotes, or up to an equals sign, a number sign or white space. A
comment has no name. -/
def takeName? : List Char → Option (Option (List Char) × List Char)
  | [] => none
  | c :: rest =>
    if c = '#' then some (none, c :: rest)
    else if c = '\'' then
      match rest.takeWhile (· != '\''), rest.dropWhile (· != '\'') with
      | [], _ => none
      | _, [] => none
      | name, _ :: left => some (some name, left)
    else
      let ends : Char → Bool := fun d => d == '=' || d == '#' || isSpace d
      match (c :: rest).takeWhile (!ends ·) with
      | [] => none
      | name => some (some name, (c :: rest).dropWhile (!ends ·))

/-- What comes after a comment, if there is one. -/
def skipComment (cs : List Char) : List Char :=
  let rest := cs.dropWhile isInlineSpace
  if rest.head? = some '#' then rest.dropWhile inLine else cs

/-- What comes after the end of the line, if nothing but white space is left of it. -/
def lineEnd? (cs : List Char) : Option (List Char) :=
  match cs.dropWhile isInlineSpace with
  | [] => some []
  | c :: rest => if inLine c then none else some rest

/-- What comes after the line, whatever it holds. -/
def skipLine (cs : List Char) : List Char := (cs.dropWhile inLine).drop 1

/-- The binding after white space, if there is one, and what comes after its line. -/
def takeBinding (cs : List Char) : Option Binding × List Char :=
  let start := skipExport (cs.dropWhile isSpace)
  match takeName? start with
  | none => (none, skipLine start)
  | some (name, rest) =>
    let rest := rest.dropWhile isInlineSpace
    let value? :=
      if rest.head? = some '=' then (takeValue? (rest.drop 1)).map fun (v, left) => (some v, left)
      else some (none, rest)
    match value? with
    | none => (none, skipLine rest)
    | some (value, rest) =>
      match lineEnd? (skipComment rest) with
      | none => (none, skipLine rest)
      | some left => (name.map (⟨·, value⟩), left)

/-- The bindings in a text, with a bound on the number of lines. -/
def takeBindings : Nat → List Char → List Binding
  | 0, _ => []
  | _ + 1, [] => []
  | lines + 1, c :: rest =>
    match takeBinding (c :: rest) with
    | (some b, left) => b :: takeBindings lines left
    | (none, left) => takeBindings lines left

/-- A text without the byte order mark that it may begin with. -/
def withoutMark : List Char → List Char
  | [] => []
  | c :: rest => if c = '\uFEFF' then rest else c :: rest

/-- The bindings in a text, in order. -/
def bindings (cs : List Char) : List Binding :=
  let text := withoutMark (Lines.unify cs)
  takeBindings (text.length + 1) text

/-! ## References -/

/-- A reference at the front of a text, after its dollar sign: the name, the default if there is one, and what comes
after it. -/
def takeReference? : List Char → Option (List Char × Option (List Char) × List Char)
  | [] => none
  | c :: rest =>
    if c = '\x7b' then
      let ends : Char → Bool := fun d => d == '\x7d' || d == ':'
      let name := rest.takeWhile (!ends ·)
      match rest.dropWhile (!ends ·) with
      | [] => none
      | d :: after =>
        if d = '\x7d' then some (name, none, after)
        else
          match after with
          | [] => none
          | e :: after =>
            if e = '-' then
              match after.dropWhile (· != '\x7d') with
              | [] => none
              | _ :: left => some (name, some (after.takeWhile (· != '\x7d')), left)
            else none
    else none

/-- The names that a value may refer to. -/
def references : List Char → List (List Char)
  | [] => []
  | c :: rest =>
    match if c = '$' then takeReference? rest else none with
    | some (name, _, _) => name :: references rest
    | none => references rest

/-- A value with its references replaced by what `value?` says of their names: nothing, or a binding that may be
empty. -/
def expand (value? : List Char → Option (Option Text)) : Nat → List Char → Text
  | 0, cs => Text.ofChars cs
  | _ + 1, [] => []
  | fuel + 1, c :: rest =>
    if c = '$' then
      match takeReference? rest with
      | some (name, fallback, left) =>
        let found := match value? name with
          | some value => value.getD []
          | none => Text.ofChars (fallback.getD [])
        found ++ expand value? fuel left
      | none => .char c :: expand value? fuel rest
    else .char c :: expand value? fuel rest

end Redeclare.EnvFile

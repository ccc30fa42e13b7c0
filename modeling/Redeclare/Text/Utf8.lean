import Redeclare.Text.Basic

/-!
# UTF-8

The bytes of text, and the text of bytes. Writing fails at the first run of lone surrogates; reading fails at the first
byte that no encoding goes through, and says which bytes were looked at and what was wrong with them.
-/

namespace Redeclare.Utf8

/-- File contents. -/
abbrev Bytes := List UInt8

/-! ## Writing -/

/-- The bytes of a character: one to four of them, by its number. -/
def encodeChar (c : Char) : Bytes :=
  let n := c.toNat
  if n < 0x80 then [UInt8.ofNat n]
  else if n < 0x800 then [UInt8.ofNat (0xC0 + n / 0x40), UInt8.ofNat (0x80 + n % 0x40)]
  else if n < 0x10000 then
    [UInt8.ofNat (0xE0 + n / 0x1000), UInt8.ofNat (0x80 + n / 0x40 % 0x40), UInt8.ofNat (0x80 + n % 0x40)]
  else
    [UInt8.ofNat (0xF0 + n / 0x40000), UInt8.ofNat (0x80 + n / 0x1000 % 0x40), UInt8.ofNat (0x80 + n / 0x40 % 0x40),
      UInt8.ofNat (0x80 + n % 0x40)]

/-- The bytes of characters. -/
def encodeChars (cs : List Char) : Bytes := cs.flatMap encodeChar

/-- A run of lone surrogates: where it starts, how long it is, and its first code point. -/
structure EncodeError where
  start : Nat
  length : Nat
  first : Point
deriving DecidableEq

/-- How many lone surrogates a text starts with. -/
def loneRun : Text → Nat
  | .lone _ :: rest => loneRun rest + 1
  | _ => 0

/-- The bytes of a text whose first code point stands at `start` of the whole. -/
def encodeFrom (start : Nat) : Text → Except EncodeError Bytes
  | [] => .ok []
  | .char c :: rest =>
    match encodeFrom (start + 1) rest with
    | .ok bytes => .ok (encodeChar c ++ bytes)
    | .error e => .error e
  | .lone u :: rest => .error ⟨start, loneRun rest + 1, .lone u⟩

/-- The bytes of a text. -/
def encode (t : Text) : Except EncodeError Bytes := encodeFrom 0 t

/-- The number of bytes a code point takes in a path. The lone surrogates from U+DC80 to U+DCFF stand for bytes that
belong to no character. -/
def width (p : Point) : Nat :=
  if p.code < 0x80 then 1
  else if p.code < 0x800 then 2
  else if 0xDC80 ≤ p.code && p.code < 0xDD00 then 1
  else if p.code < 0x10000 then 3
  else 4

/-- The number of bytes a text takes. -/
def byteLength (t : Text) : Nat := t.foldr (fun p rest => width p + rest) 0

/-! ## Reading -/

/-- What is wrong with the bytes that were looked at. -/
inductive Fault where
  | start
  | continuation
  | endOfData
deriving DecidableEq

/-- The bytes that belong to no character: where they start, which they are, and what is wrong. -/
structure DecodeError where
  start : Nat
  bytes : Bytes
  fault : Fault
deriving DecidableEq

/-- A byte that carries six bits of a character that began earlier. -/
def isContinuation (b : UInt8) : Bool := 0x80 ≤ b && b ≤ 0xBF

/-- The bytes that may follow the first byte of a three-byte character: longer forms and surrogates are
excluded. -/
def mayFollowThree (b c : UInt8) : Bool :=
  isContinuation c && (b != 0xE0 || 0xA0 ≤ c) && (b != 0xED || c < 0xA0)

/-- The bytes that may follow the first byte of a four-byte character: shorter encodings and numbers beyond the last
code point are excluded. -/
def mayFollowFour (b c : UInt8) : Bool :=
  isContinuation c && (b != 0xF0 || 0x90 ≤ c) && (b != 0xF4 || c < 0x90)

/-- The low six bits of a continuation byte. -/
def payload (b : UInt8) : Nat := b.toNat - 0x80

/-- A character in front of what the rest decodes to. -/
def push (n : Nat) : Except DecodeError (List Char) → Except DecodeError (List Char)
  | .ok cs => .ok (Char.ofNat n :: cs)
  | .error e => .error e

/-- The characters of bytes whose first stands at `start` of the whole. -/
def decodeFrom (start : Nat) : Bytes → Except DecodeError (List Char)
  | [] => .ok []
  | b :: rest =>
    if b < 0x80 then push b.toNat (decodeFrom (start + 1) rest)
    else if b < 0xC2 then .error ⟨start, [b], .start⟩
    else if b < 0xE0 then
      match rest with
      | [] => .error ⟨start, [b], .endOfData⟩
      | c :: rest =>
        if isContinuation c then push ((b.toNat - 0xC0) * 0x40 + payload c) (decodeFrom (start + 2) rest)
        else .error ⟨start, [b], .continuation⟩
    else if b < 0xF0 then
      match rest with
      | [] => .error ⟨start, [b], .endOfData⟩
      | c :: rest =>
        if mayFollowThree b c then
          match rest with
          | [] => .error ⟨start, [b, c], .endOfData⟩
          | d :: rest =>
            if isContinuation d then
              push ((b.toNat - 0xE0) * 0x1000 + payload c * 0x40 + payload d) (decodeFrom (start + 3) rest)
            else .error ⟨start, [b, c], .continuation⟩
        else .error ⟨start, [b], .continuation⟩
    else if b < 0xF5 then
      match rest with
      | [] => .error ⟨start, [b], .endOfData⟩
      | c :: rest =>
        if mayFollowFour b c then
          match rest with
          | [] => .error ⟨start, [b, c], .endOfData⟩
          | d :: rest =>
            if isContinuation d then
              match rest with
              | [] => .error ⟨start, [b, c, d], .endOfData⟩
              | e :: rest =>
                if isContinuation e then
                  push ((b.toNat - 0xF0) * 0x40000 + payload c * 0x1000 + payload d * 0x40 + payload e)
                    (decodeFrom (start + 4) rest)
                else .error ⟨start, [b, c, d], .continuation⟩
            else .error ⟨start, [b, c], .continuation⟩
        else .error ⟨start, [b], .continuation⟩
    else .error ⟨start, [b], .start⟩

/-- The characters of bytes. -/
def decode (bytes : Bytes) : Except DecodeError (List Char) := decodeFrom 0 bytes

/-! ## Wording -/

namespace EncodeError

/-- The wording of a failed encoding: one code point is shown, a run is given by its first and last position. -/
def message (e : EncodeError) : Text :=
  if e.length = 1 then
    Text.ofString "'utf-8' codec can't encode character '\\u" ++ Text.ofHex 4 e.first.code ++
      Text.ofString "' in position " ++ Text.ofNat e.start ++ Text.ofString ": surrogates not allowed"
  else
    Text.ofString "'utf-8' codec can't encode characters in position " ++ Text.ofNat e.start ++ Text.ofString "-" ++
      Text.ofNat (e.start + e.length - 1) ++ Text.ofString ": surrogates not allowed"

end EncodeError

namespace Fault

/-- The wording of what is wrong. -/
def message : Fault → Text
  | .start => Text.ofString "invalid start byte"
  | .continuation => Text.ofString "invalid continuation byte"
  | .endOfData => Text.ofString "unexpected end of data"

end Fault

namespace DecodeError

/-- The wording of a failed decoding: one byte is shown, several are given by their first and last position. -/
def message (e : DecodeError) : Text :=
  match e.bytes with
  | [b] =>
    Text.ofString "'utf-8' codec can't decode byte 0x" ++ Text.ofHex 2 b.toNat ++ Text.ofString " in position " ++
      Text.ofNat e.start ++ Text.ofString ": " ++ e.fault.message
  | bytes =>
    Text.ofString "'utf-8' codec can't decode bytes in position " ++ Text.ofNat e.start ++ Text.ofString "-" ++
      Text.ofNat (e.start + bytes.length - 1) ++ Text.ofString ": " ++ e.fault.message

end DecodeError

end Redeclare.Utf8

/-!
# Keccak-256

The hash by which contracts are told which function is called: the sponge over the permutation Keccak-f[1600] with
blocks of 136 bytes, padding without domain bits, and 32 bytes of output.
-/

namespace Redeclare.Keccak

/-- Twenty-five lanes; the lane of column `x` and row `y` is the one with number `x + 5 * y`. -/
abbrev State := List UInt64

/-- The lane with number `i`. -/
def lane (s : State) (i : Nat) : UInt64 := s.getD i 0

/-- A lane turned left by `n < 64` bits. -/
def rotate (a : UInt64) (n : Nat) : UInt64 :=
  if n = 0 then a else a <<< UInt64.ofNat n ||| a >>> UInt64.ofNat (64 - n)

/-- The constants of the twenty-four rounds. -/
def roundConstants : List UInt64 :=
  [0x0000000000000001, 0x0000000000008082, 0x800000000000808A, 0x8000000080008000, 0x000000000000808B,
   0x0000000080000001, 0x8000000080008081, 0x8000000000008009, 0x000000000000008A, 0x0000000000000088,
   0x0000000080008009, 0x000000008000000A, 0x000000008000808B, 0x800000000000008B, 0x8000000000008089,
   0x8000000000008003, 0x8000000000008002, 0x8000000000000080, 0x000000000000800A, 0x800000008000000A,
   0x8000000080008081, 0x8000000000008080, 0x0000000080000001, 0x8000000080008008]

/-- By how many bits each lane is turned. -/
def rotations : List Nat :=
  [0, 1, 62, 28, 27, 36, 44, 6, 55, 20, 3, 10, 43, 25, 39, 41, 45, 15, 21, 8, 18, 2, 61, 56, 14]

/-- The parity of a column. -/
def parity (s : State) (x : Nat) : UInt64 :=
  lane s x ^^^ lane s (x + 5) ^^^ lane s (x + 10) ^^^ lane s (x + 15) ^^^ lane s (x + 20)

/-- Each lane takes in the parities of two neighbouring columns. -/
def theta (s : State) : State :=
  let parities := (List.range 5).map (parity s)
  let effects := (List.range 5).map fun x => lane parities ((x + 4) % 5) ^^^ rotate (lane parities ((x + 1) % 5)) 1
  (List.range 25).map fun i => lane s i ^^^ lane effects (i % 5)

/-- Each lane is turned and moved to another place. -/
def rhoPi (s : State) : State :=
  let turned := List.zipWith rotate s rotations
  (List.range 25).map fun i =>
    let x := i % 5
    let y := i / 5
    lane turned ((x + 3 * y) % 5 + 5 * x)

/-- Each lane takes in the next two of its row, the only step that is not linear. -/
def chi (s : State) : State :=
  (List.range 25).map fun i =>
    let row := 5 * (i / 5)
    lane s i ^^^ ((lane s (row + (i + 1) % 5) ^^^ 0xFFFFFFFFFFFFFFFF) &&& lane s (row + (i + 2) % 5))

/-- The first lane takes in the constant of the round. -/
def iota (constant : UInt64) : State → State
  | [] => []
  | a :: rest => (a ^^^ constant) :: rest

/-- All rounds. -/
def permute (s : State) : State := roundConstants.foldl (fun s constant => iota constant (chi (rhoPi (theta s)))) s

/-! ## The sponge -/

/-- The bytes that are taken in between two permutations. -/
def blockSize : Nat := 136

/-- The message filled up to whole blocks: a one bit after it and a one bit at the end. -/
def pad (message : List UInt8) : List UInt8 :=
  let missing := blockSize - message.length % blockSize
  if missing = 1 then message ++ [0x81] else message ++ 0x01 :: List.replicate (missing - 2) 0 ++ [0x80]

/-- A lane of bytes, the least significant first. -/
def laneOfBytes (bytes : List UInt8) : UInt64 := bytes.foldr (fun b acc => acc <<< 8 ||| b.toUInt64) 0

/-- The bytes of a lane, the least significant first. -/
def bytesOfLane (a : UInt64) : List UInt8 := (List.range 8).map fun i => (a >>> UInt64.ofNat (8 * i)).toUInt8

/-- Takes in the blocks of a padded message one after another; `count` is their number. -/
def absorb : Nat → List UInt8 → State → State
  | 0, _, s => s
  | count + 1, bytes, s =>
    let block := (List.range 25).map fun i => laneOfBytes ((bytes.drop (8 * i)).take (if i < 17 then 8 else 0))
    absorb count (bytes.drop blockSize) (permute (List.zipWith (· ^^^ ·) s block))

/-- The thirty-two bytes of the hash. -/
def hash (message : List UInt8) : List UInt8 :=
  let padded := pad message
  let final := absorb (padded.length / blockSize) padded (List.replicate 25 0)
  ((final.take 4).map bytesOfLane).flatten

end Redeclare.Keccak

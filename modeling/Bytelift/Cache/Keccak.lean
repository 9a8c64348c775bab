import Bytelift.Text

/-!
# Keccak-256

The sponge over the permutation of 25 lanes of 64 bits, with a rate of 136 bytes and the padding that
starts with the byte 1. The lane in column `x` and row `y` has number `x + 5 * y`.
-/

namespace Bytelift.Keccak

/-- The state of the sponge. -/
abbrev Lanes := Vector UInt64 25

/-- The lane in a column and a row, both taken modulo five. -/
def lane (s : Lanes) (x y : Nat) : UInt64 := s.toArray.getD (x % 5 + 5 * (y % 5)) 0

/-- The state with a lane for each column and row. -/
def ofLanes (f : Nat → Nat → UInt64) : Lanes := Vector.ofFn fun i => f (i.val % 5) (i.val / 5)

def rotateLeft (w : UInt64) (n : Nat) : UInt64 :=
  if n = 0 then w else (w <<< n.toUInt64) ||| (w >>> (64 - n).toUInt64)

/-- How far each lane is rotated. -/
def rotations : Array Nat :=
  #[0, 1, 62, 28, 27, 36, 44, 6, 55, 20, 3, 10, 43, 25, 39, 41, 45, 15, 21, 8, 18, 2, 61, 56, 14]

def roundConstants : List UInt64 :=
  [0x0000000000000001, 0x0000000000008082, 0x800000000000808A, 0x8000000080008000,
    0x000000000000808B, 0x0000000080000001, 0x8000000080008081, 0x8000000000008009,
    0x000000000000008A, 0x0000000000000088, 0x0000000080008009, 0x000000008000000A,
    0x000000008000808B, 0x800000000000008B, 0x8000000000008089, 0x8000000000008003,
    0x8000000000008002, 0x8000000000000080, 0x000000000000800A, 0x800000008000000A,
    0x8000000080008081, 0x8000000000008080, 0x0000000080000001, 0x8000000080008008]

def columns (s : Lanes) : Vector UInt64 5 :=
  Vector.ofFn fun x =>
    lane s x 0 ^^^ lane s x 1 ^^^ lane s x 2 ^^^ lane s x 3 ^^^ lane s x 4

/-- Adds to each lane the parities of two neighbouring columns. -/
def theta (s : Lanes) : Lanes :=
  let c := (columns s).toArray
  ofLanes fun x y => lane s x y ^^^ c.getD ((x + 4) % 5) 0 ^^^ rotateLeft (c.getD ((x + 1) % 5) 0) 1

/-- Rotates the lanes and moves them to other places. -/
def rhoPi (s : Lanes) : Lanes :=
  ofLanes fun x y =>
    let column := (x + 3 * y) % 5
    rotateLeft (lane s column x) (rotations.getD (column + 5 * x) 0)

/-- Combines each lane with the next two in its row. -/
def chi (s : Lanes) : Lanes :=
  ofLanes fun x y => lane s x y ^^^ (~~~(lane s (x + 1) y) &&& lane s (x + 2) y)

/-- Adds a round constant to the first lane. -/
def iota (c : UInt64) (s : Lanes) : Lanes :=
  ofLanes fun x y => if x = 0 ∧ y = 0 then lane s x y ^^^ c else lane s x y

def permute (s : Lanes) : Lanes :=
  roundConstants.foldl (fun s c => iota c (chi (rhoPi (theta s)))) s

/-- How many bytes a block has. -/
def rate : Nat := 136

/-- The number that bytes write, least significant first. -/
def littleEndian (bs : List UInt8) : UInt64 :=
  bs.foldr (fun b n => (n <<< 8) ||| b.toUInt64) 0

def addBlock (s : Lanes) (block : List UInt8) : Lanes :=
  ofLanes fun x y => lane s x y ^^^ littleEndian ((block.drop (8 * (x + 5 * y))).take 8)

/-- Takes in `n` blocks. -/
def absorb : Nat → List UInt8 → Lanes → Lanes
  | 0, _, s => s
  | n + 1, bs, s => absorb n (bs.drop rate) (permute (addBlock s (bs.take rate)))

/-- The bytes behind a message of a length. -/
def padding (length : Nat) : List UInt8 :=
  match rate - length % rate with
  | 1 => [0x81]
  | n => 1 :: List.replicate (n - 2) 0 ++ [0x80]

/-- The digest of a message, 32 bytes. -/
def digest (message : List UInt8) : List UInt8 :=
  let padded := message ++ padding message.length
  let s := absorb (padded.length / rate) padded (Vector.replicate 25 0)
  (List.range 32).map fun i => ((lane s (i / 8) 0) >>> (8 * (i % 8)).toUInt64).toUInt8

end Bytelift.Keccak

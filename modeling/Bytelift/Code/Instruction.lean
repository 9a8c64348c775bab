import Bytelift.Code.Opcode

/-!
# Instructions

A decoded instruction: where it starts, how long it is, its opcode and its operand. Branch targets are
absolute positions. Positions in code are called bcis.

`decode` splits code into instructions in order. It walks over the bytes once: at the first byte of an
instruction it reads the whole instruction from the bytes ahead, then passes over the bytes that
belong to it.
-/

namespace Bytelift

/-- The arms of a switch: the default target, and keys with their targets in ascending order. -/
structure SwitchTable where
  fallback : Int
  cases : List (Int × Int)
  deriving DecidableEq, Repr

namespace SwitchTable

def keys (t : SwitchTable) : List Int := t.cases.map (·.1)

/-- The default target and then the targets of the keys. -/
def targets (t : SwitchTable) : List Int := t.fallback :: t.cases.map (·.2)

end SwitchTable

inductive Operand
  | none
  /-- A pushed value or an array tag. -/
  | imm (value : Int)
  | localVar (index : Nat)
  | increment (index : Nat) (delta : Int)
  | pool (index : Nat)
  /-- A pool index with an argument count or a number of dimensions. -/
  | poolCount (index : Nat) (count : Nat)
  | branch (target : Int)
  | switch (table : SwitchTable)
  deriving DecidableEq, Repr

structure Instruction where
  bci : Nat
  op : Opcode
  len : Nat
  operand : Operand
  /-- Whether a `wide` modifier stands in front. -/
  isWide : Bool := false
  deriving DecidableEq, Repr

namespace Instruction

def next (i : Instruction) : Nat := i.bci + i.len

/-- Every explicit destination of the instruction; a switch starts with its default. -/
def targets (i : Instruction) : List Int :=
  match i.operand with
  | .branch t => [t]
  | .switch t => t.targets
  | _ => []

/-- The local variable that the instruction names, or that its opcode implies. -/
def localIndex (i : Instruction) : Nat :=
  match i.op, i.operand with
  | .loadAt _ n, _ | .storeAt _ n, _ => n.val
  | _, .localVar n => n
  | _, .increment n _ => n
  | _, _ => 0

/-- The immediate value of the instruction: a pushed value, an increment, a tag or a count. -/
def immediate (i : Instruction) : Int :=
  match i.operand with
  | .imm v => v
  | .increment _ d => d
  | .poolCount _ n => n
  | _ => 0

def poolIndex (i : Instruction) : Nat :=
  match i.operand with
  | .pool n => n
  | .poolCount n _ => n
  | _ => 0

def operandText (i : Instruction) : Text :=
  match i.operand with
  | .none => []
  | .imm v => " " ++ Text.ofInt v
  | .localVar n => " " ++ Text.ofNat n
  | .increment n d => " " ++ Text.ofNat n ++ " " ++ Text.ofInt d
  | .pool n => " #" ++ Text.ofNat n
  | .poolCount n c =>
    " #" ++ Text.ofNat n ++ (if i.op = .multianewarray then Text.ofString " " ++ Text.ofNat c else [])
  | .branch t => " " ++ Text.ofInt t
  | .switch t =>
    " default=" ++ Text.ofInt t.fallback ++ " cases=" ++ Text.ofNat t.cases.length

def text (i : Instruction) : Text :=
  Text.ofNat i.bci ++ ": " ++ i.op.mnemonic ++ i.operandText

end Instruction

/-! ## Decoding -/

inductive DecodeError
  | truncated (bci : Nat)
  | unknownOpcode (byte : UInt8) (bci : Nat)
  | badWide (op : Opcode) (bci : Nat)
  | tableBounds (bci : Nat) (low high : Int)
  | pairCount (bci : Nat) (count : Int)
  | keyOrder (bci : Nat)
  deriving DecidableEq, Repr

def DecodeError.message : DecodeError → Text
  | .truncated bci => "truncated instruction at " ++ Text.ofNat bci ++ ": malformed bytecode"
  | .unknownOpcode b bci =>
    "0x" ++ Text.hexFixed 2 b.toNat ++ " at " ++ Text.ofNat bci ++ ": unknown opcode"
  | .badWide op bci =>
    "wide applied to " ++ op.mnemonic ++ " at " ++ Text.ofNat bci ++ ": malformed bytecode"
  | .tableBounds bci low high =>
    "tableswitch at " ++ Text.ofNat bci ++ " has low " ++ Text.ofInt low ++ " > high " ++
      Text.ofInt high ++ ": malformed bytecode"
  | .pairCount bci n =>
    "lookupswitch at " ++ Text.ofNat bci ++ " has " ++ Text.ofInt n ++ " pairs: malformed bytecode"
  | .keyOrder bci =>
    "lookupswitch at " ++ Text.ofNat bci ++ " keys out of order: malformed bytecode"

namespace Code

/-- Whether at least `n` bytes are there. -/
def hasBytes : Nat → List UInt8 → Bool
  | 0, _ => true
  | _ + 1, [] => false
  | n + 1, _ :: bs => hasBytes n bs

theorem hasBytes_iff : ∀ (n : Nat) (bs : List UInt8), hasBytes n bs = true ↔ n ≤ bs.length
  | 0, _ => by simp [hasBytes]
  | n + 1, [] => by simp [hasBytes]
  | n + 1, _ :: bs => by simp [hasBytes, hasBytes_iff n bs]

/-- The number that bytes write, most significant first. -/
def bigEndian (bs : List UInt8) : Nat := bs.foldl (fun n b => n * 256 + b.toNat) 0

/-- An unsigned number as the two's complement number of the same `bits` bits. -/
def signed (bits : Nat) (n : Nat) : Int := (n : Int).bmod (Nat.pow 2 bits)

def s1 (bs : List UInt8) : Int := signed 8 (bigEndian (bs.take 1))

/-- The unsigned number in the first byte. -/
def u1 (bs : List UInt8) : Nat := bigEndian (bs.take 1)

/-- The unsigned number in the first two bytes. -/
def u2 (bs : List UInt8) : Nat := bigEndian (bs.take 2)

def s2 (bs : List UInt8) : Int := signed 16 (bigEndian (bs.take 2))

def s4 (bs : List UInt8) : Int := signed 32 (bigEndian (bs.take 4))

/-- The first `n` signed numbers of four bytes each. -/
def words : Nat → List UInt8 → List Int
  | 0, _ => []
  | n + 1, bs => s4 bs :: words n (bs.drop 4)

/-- The operand of an opcode of fixed length, read from the bytes behind the opcode. -/
def operand (bci : Nat) (e : Encoding) (bs : List UInt8) : Operand :=
  match e with
  | .none | .varying => .none
  | .byte => .imm (s1 bs)
  | .short => .imm (s2 bs)
  | .arrayTag => .imm (u1 bs)
  | .localIndex => .localVar (u1 bs)
  | .increment => .increment (u1 bs) (s1 (bs.drop 1))
  | .poolByte => .pool (u1 bs)
  | .poolShort | .dynamicCall => .pool (u2 bs)
  | .interfaceCall | .dimensions => .poolCount (u2 bs) (u1 (bs.drop 2))
  | .branchShort => .branch (bci + s2 bs)
  | .branchLong => .branch (bci + s4 bs)

/-- Reads an instruction under `wide` from the bytes behind the modifier. -/
def decodeWide (bci : Nat) (bs : List UInt8) : Except DecodeError Instruction :=
  if !hasBytes 3 bs then .error (.truncated bci)
  else
    let op := Opcode.ofByte (bs.headD 0)
    match op with
    | .iinc =>
      if !hasBytes 5 bs then .error (.truncated bci)
      else .ok ⟨bci, op, 6, .increment (u2 (bs.drop 1)) (s2 (bs.drop 3)), true⟩
    | .load _ | .store _ | .ret => .ok ⟨bci, op, 4, .localVar (u2 (bs.drop 1)), true⟩
    | _ => .error (.badWide op bci)

/-- The zero bytes between a switch opcode and its table, which starts at a multiple of four. -/
def padding (bci : Nat) : Nat := (4 - (bci + 1) % 4) % 4

/-- Reads a `tableswitch` from its table, which starts at `base`. -/
def decodeTable (bci base : Nat) (bs : List UInt8) : Except DecodeError Instruction :=
  if !hasBytes 12 bs then .error (.truncated base)
  else
    let low := s4 (bs.drop 4)
    let high := s4 (bs.drop 8)
    if high < low then .error (.tableBounds bci low high)
    else
      let n := (high - low + 1).toNat
      if !hasBytes (12 + 4 * n) bs then .error (.truncated (base + 12))
      else
        let cases := (words n (bs.drop 12)).zipIdx.map fun (t, i) => (low + i, bci + t)
        .ok ⟨bci, .tableswitch, base + 12 + 4 * n - bci, .switch ⟨bci + s4 bs, cases⟩, false⟩

/-- Consecutive words as pairs of a key and a target. -/
def pairs (bci : Nat) : List Int → List (Int × Int)
  | k :: t :: ws => (k, bci + t) :: pairs bci ws
  | _ => []

/-- Whether every number is below the next one. -/
def ascending : List Int → Bool
  | a :: b :: l => a < b && ascending (b :: l)
  | _ => true

/-- Reads a `lookupswitch` from its table, which starts at `base`. -/
def decodeLookup (bci base : Nat) (bs : List UInt8) : Except DecodeError Instruction :=
  let count := s4 (bs.drop 4)
  if count < 0 then .error (.pairCount bci count)
  else
    let n := count.toNat
    if !hasBytes (8 + 8 * n) bs then .error (.truncated (base + 8))
    else
      let table : SwitchTable := ⟨bci + s4 bs, pairs bci (words (2 * n) (bs.drop 8))⟩
      if ascending table.keys then
        .ok ⟨bci, .lookupswitch, base + 8 + 8 * n - bci, .switch table, false⟩
      else .error (.keyOrder bci)

def decodeSwitch (bci : Nat) (op : Opcode) (bs : List UInt8) : Except DecodeError Instruction :=
  let base := bci + 1 + padding bci
  let table := bs.drop (padding bci)
  if !hasBytes 8 table then .error (.truncated base)
  else if op = .tableswitch then decodeTable bci base table
  else decodeLookup bci base table

/-- Reads the instruction that starts at `bci` with byte `b`, followed by `bs`. -/
def decodeOne (bci : Nat) (b : UInt8) (bs : List UInt8) : Except DecodeError Instruction :=
  let op := Opcode.ofByte b
  match op with
  | .undefined _ => .error (.unknownOpcode b bci)
  | .wide => decodeWide bci bs
  | .tableswitch | .lookupswitch => decodeSwitch bci op bs
  | _ =>
    let len := op.encoding.length
    if !hasBytes (len - 1) bs then .error (.truncated bci)
    else .ok ⟨bci, op, len, operand bci op.encoding bs, false⟩

/-- Decodes the bytes from `bci` on, after `skip` more bytes of the instruction before. -/
def decodeFrom : (bci skip : Nat) → List UInt8 → List Instruction →
    Except DecodeError (List Instruction)
  | _, _, [], acc => .ok acc.reverse
  | bci, skip + 1, _ :: bs, acc => decodeFrom (bci + 1) skip bs acc
  | bci, 0, b :: bs, acc =>
    match decodeOne bci b bs with
    | .error e => .error e
    | .ok i => decodeFrom (bci + 1) (i.len - 1) bs (i :: acc)

def decode (code : List UInt8) : Except DecodeError (List Instruction) := decodeFrom 0 0 code []

end Code
end Bytelift

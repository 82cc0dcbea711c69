import MicroJava.Code.Opcode

/-! # Decoded instructions

Code is a string of bytes: each opcode is followed by the bytes of its operands.
`Instruction.encode` writes one instruction, and `Instruction.decode` splits any byte string into
instructions. A byte that is no opcode stands alone, and the last instruction may lack operand
bytes.
-/

namespace MicroJava

/-- The lowest eight bits of a number. -/
def lowByte (x : Int) : UInt8 := UInt8.ofNat (x % 256).toNat

/-- The low bits of a number in as many bytes as a width has, the high byte first. -/
def Width.encode (x : Int) : Width → List UInt8
  | byte => [lowByte x]
  | short => [lowByte (x / 0x100), lowByte x]
  | word => [lowByte (x / 0x1000000), lowByte (x / 0x10000), lowByte (x / 0x100), lowByte x]

/-- The number that bytes stand for, the high byte first and the highest bit a sign. -/
def signedValue (bytes : List UInt8) : Int :=
  Int.bmod (bytes.foldl (fun n b => 256 * n + b.toNat) 0) (Nat.pow 256 bytes.length)

/-- An instruction as it was found in a byte string. -/
structure Instruction where
  /-- Where the instruction begins. -/
  addr : Nat
  /-- The first byte. -/
  code : UInt8
  /-- The operand bytes that were there. -/
  bytes : List UInt8
deriving DecidableEq, Repr

namespace Instruction

/-- The bytes of an instruction. -/
def encode (op : Opcode) (operands : List Int) : List UInt8 :=
  op.code :: ((op.widths.zip operands).map fun (width, x) => width.encode x).flatten

/-- The operation, if the first byte stands for one. -/
def op? (i : Instruction) : Option Opcode := Opcode.ofByte? i.code

/-- The number of bytes of an instruction. -/
def length (i : Instruction) : Nat := 1 + i.bytes.length

/-- Whether no operand byte is missing. -/
def isComplete (i : Instruction) : Bool :=
  match i.op? with
  | some op => i.length == op.size
  | none => true

/-- Reads operands of the given widths. -/
def readOperands : List Width → List UInt8 → List Int
  | [], _ => []
  | width :: widths, bytes =>
    signedValue (bytes.take width.bytes) :: readOperands widths (bytes.drop width.bytes)

/-- The operands as numbers; none if a byte is missing. -/
def operands (i : Instruction) : List Int :=
  match i.op? with
  | some op => if i.isComplete then readOperands op.widths i.bytes else []
  | none => []

/-- The address to which a jump or call transfers control, if it is not negative. -/
def target? (i : Instruction) : Option Nat := do
  let op ← i.op?
  if !op.isTransfer then failure
  let offset ← i.operands.head?
  let target : Int := (i.addr + i.length : Nat) + offset
  if target < 0 then none else some target.toNat

/-- Decodes at most `fuel` instructions of a byte string that begins at `addr`, adding them to
`done`. -/
def decodeFrom : (fuel addr : Nat) → List UInt8 → (done : Array Instruction) → Array Instruction
  | 0, _, _, done => done
  | _, _, [], done => done
  | fuel + 1, addr, code :: rest, done =>
    let (bytes, rest) := rest.splitAt (((Opcode.ofByte? code).map Opcode.operandBytes).getD 0)
    decodeFrom fuel (addr + 1 + bytes.length) rest (done.push ⟨addr, code, bytes⟩)

/-- Splits a byte string into instructions. -/
def decode (code : List UInt8) : List Instruction := (decodeFrom code.length 0 code #[]).toList

/-- An instruction in an object file: the mnemonic, or a question mark and the number of an unknown
opcode, and every operand byte. -/
def text (i : Instruction) : String :=
  let head := match i.op? with
    | some op => op.mnemonic
    | none => s!"?{i.code.toNat}"
  i.bytes.foldl (fun line b => s!"{line} {b.toNat}") head

end Instruction

end MicroJava

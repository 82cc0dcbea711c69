import MicroJava.Code.Instruction

/-! # Growing code

A code buffer takes instructions at its end. Bytes that are already there change only when a slot
that was reserved for an offset is filled in. Offsets that do not fit their two bytes are written
all the same, and counted.
-/

namespace MicroJava

/-- The code of a program with what the head of an object file says about it. -/
structure CodeBuffer where
  bytes : Array UInt8 := #[]
  /-- The address at which execution begins. -/
  entry : Option Nat := none
  /-- The number of global variables. -/
  dataSize : Nat := 0
  /-- How many offsets did not fit since the count was last taken. -/
  farOffsets : Nat := 0
deriving DecidableEq, Repr

namespace CodeBuffer

/-- A buffer without code. -/
def empty : CodeBuffer := {}

/-- The address of the next byte. -/
def pc (c : CodeBuffer) : Nat := c.bytes.size

/-- The code as instructions. -/
def instructions (c : CodeBuffer) : List Instruction := Instruction.decode c.bytes.toList

/-- Adds bytes at the end. -/
def append (c : CodeBuffer) (bytes : List UInt8) : CodeBuffer :=
  { c with bytes := c.bytes.appendList bytes }

/-- Adds an instruction with its operands. -/
def emit (c : CodeBuffer) (op : Opcode) (operands : List Int) : CodeBuffer :=
  c.append (Instruction.encode op operands)

/-- Adds an opcode alone. -/
def put (c : CodeBuffer) (op : Opcode) : CodeBuffer :=
  { c with bytes := c.bytes.push op.code }

/-- Adds the low bits of a number. -/
def putNumber (c : CodeBuffer) (width : Width) (x : Int) : CodeBuffer :=
  c.append (width.encode x)

/-- How far it is from one address to another. -/
def offset (target start : Nat) : Int := (target : Int) - start

/-- Whether an offset fits two signed bytes. -/
def fits (offset : Int) : Bool := -0x8000 ≤ offset && offset ≤ 0x7fff

/-- Counts an offset that does not fit. -/
def noteOffset (c : CodeBuffer) (offset : Int) : CodeBuffer :=
  if fits offset then c else { c with farOffsets := c.farOffsets + 1 }

/-- Adds an offset. -/
def putOffset (c : CodeBuffer) (offset : Int) : CodeBuffer :=
  (c.noteOffset offset).putNumber .short offset

/-- Adds a slot for an offset that is not known yet. The slot lies where the code ended before. -/
def reserve (c : CodeBuffer) : CodeBuffer := c.putNumber .short 0

/-- Whether two bytes of code lie at a position. -/
def hasSlot (c : CodeBuffer) (pos : Nat) : Bool := pos + 2 ≤ c.pc

/-- Bytes with the two at a position replaced by an offset. -/
def overwrite (bytes : Array UInt8) (pos : Nat) (offset : Int) : Array UInt8 :=
  (bytes.setIfInBounds pos (lowByte (offset / 0x100))).setIfInBounds (pos + 1) (lowByte offset)

/-- Fills in the slot at a position. -/
def patch (c : CodeBuffer) (pos : Nat) (offset : Int) : CodeBuffer :=
  let c := c.noteOffset offset
  { c with bytes := overwrite c.bytes pos offset }

/-- Sets the number of offsets that did not fit back to zero. -/
def clearFarOffsets (c : CodeBuffer) : CodeBuffer := { c with farOffsets := 0 }

/-- Pushes a constant. -/
def loadConst (c : CodeBuffer) (value : Int32) : CodeBuffer :=
  match Opcode.constShort? value.toInt with
  | some op => c.emit op []
  | none => c.emit .const [value.toInt]

/-- Sets up the frame of a method. -/
def enter (c : CodeBuffer) (parameterCount varCount : Nat) : CodeBuffer :=
  c.emit .enter [parameterCount, varCount]

end CodeBuffer

end MicroJava

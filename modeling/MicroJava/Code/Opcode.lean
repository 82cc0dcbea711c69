/-! # The instruction set

The opcodes of the target stack machine with their mnemonics and operand widths, and the relations
that conditional jumps test.
-/

namespace MicroJava

/-- How many bytes an operand takes up. Operands are signed and stored with the high byte first. -/
inductive Width where
  | byte | short | word
deriving DecidableEq, Repr

/-- The number of bytes of a width. -/
def Width.bytes : Width → Nat
  | byte => 1
  | short => 2
  | word => 4

/-- The operations of the machine, in the order of their numbers. -/
inductive Opcode where
  | load | load0 | load1 | load2 | load3
  | store | store0 | store1 | store2 | store3
  | getStatic | putStatic | getField | putField
  | const0 | const1 | const2 | const3 | const4 | const5 | constM1 | const
  | add | sub | mul | div | rem | neg | shl | shr | inc
  | new | newArray | aload | astore | baload | bastore | arrayLength
  | pop | dup | dup2
  | jmp | jeq | jne | jlt | jle | jgt | jge
  | call | ret | enter | exit
  | read | print | bread | bprint
  | trap | nop
deriving DecidableEq, Repr, Inhabited

namespace Opcode

/-- Every opcode once, in order. -/
def all : Array Opcode :=
  #[load, load0, load1, load2, load3,
    store, store0, store1, store2, store3,
    getStatic, putStatic, getField, putField,
    const0, const1, const2, const3, const4, const5, constM1, const,
    add, sub, mul, div, rem, neg, shl, shr, inc,
    new, newArray, aload, astore, baload, bastore, arrayLength,
    pop, dup, dup2,
    jmp, jeq, jne, jlt, jle, jgt, jge,
    call, ret, enter, exit,
    read, print, bread, bprint,
    trap, nop]

/-- The byte that stands for an opcode. Opcodes are numbered from one. -/
def code (op : Opcode) : UInt8 := UInt8.ofNat (op.ctorIdx + 1)

/-- The opcode that a byte stands for. -/
def ofByte? (b : UInt8) : Option Opcode :=
  if b = 0 then none else all[b.toNat - 1]?

theorem ofByte?_code (op : Opcode) : ofByte? op.code = some op := by
  cases op <;> rfl

/-- The widths of the operands that follow an opcode. -/
def widths : Opcode → List Width
  | load | store | newArray | trap => [.byte]
  | inc | enter => [.byte, .byte]
  | getStatic | putStatic | getField | putField | new | call
  | jmp | jeq | jne | jlt | jle | jgt | jge => [.short]
  | const => [.word]
  | _ => []

/-- The number of operand bytes that follow an opcode. -/
def operandBytes (op : Opcode) : Nat := op.widths.foldr (·.bytes + ·) 0

/-- The number of bytes of a whole instruction. -/
def size (op : Opcode) : Nat := 1 + op.operandBytes

/-- Whether the operand of an instruction is an offset from its end to where it may continue. -/
def isTransfer : Opcode → Bool
  | jmp | jeq | jne | jlt | jle | jgt | jge | call => true
  | _ => false

/-- The load of a local variable in one of the first slots, without operand. -/
def loadShort? : Int → Option Opcode
  | 0 => some load0
  | 1 => some load1
  | 2 => some load2
  | 3 => some load3
  | _ => none

/-- The store to a local variable in one of the first slots, without operand. -/
def storeShort? : Int → Option Opcode
  | 0 => some store0
  | 1 => some store1
  | 2 => some store2
  | 3 => some store3
  | _ => none

/-- The push of a small constant, without operand. -/
def constShort? : Int → Option Opcode
  | -1 => some constM1
  | 0 => some const0
  | 1 => some const1
  | 2 => some const2
  | 3 => some const3
  | 4 => some const4
  | 5 => some const5
  | _ => none

/-- The name of an opcode in object files and listings. -/
def mnemonic : Opcode → String
  | load => "load"
  | load0 => "load_0"
  | load1 => "load_1"
  | load2 => "load_2"
  | load3 => "load_3"
  | store => "store"
  | store0 => "store_0"
  | store1 => "store_1"
  | store2 => "store_2"
  | store3 => "store_3"
  | getStatic => "getstatic"
  | putStatic => "putstatic"
  | getField => "getfield"
  | putField => "putfield"
  | const0 => "const_0"
  | const1 => "const_1"
  | const2 => "const_2"
  | const3 => "const_3"
  | const4 => "const_4"
  | const5 => "const_5"
  | constM1 => "const_m1"
  | const => "const"
  | add => "add"
  | sub => "sub"
  | mul => "mul"
  | div => "div"
  | rem => "rem"
  | neg => "neg"
  | shl => "shl"
  | shr => "shr"
  | inc => "inc"
  | new => "new"
  | newArray => "newarray"
  | aload => "aload"
  | astore => "astore"
  | baload => "baload"
  | bastore => "bastore"
  | arrayLength => "arraylength"
  | pop => "pop"
  | dup => "dup"
  | dup2 => "dup2"
  | jmp => "jmp"
  | jeq => "jeq"
  | jne => "jne"
  | jlt => "jlt"
  | jle => "jle"
  | jgt => "jgt"
  | jge => "jge"
  | call => "call"
  | ret => "return"
  | enter => "enter"
  | exit => "exit"
  | read => "read"
  | print => "print"
  | bread => "bread"
  | bprint => "bprint"
  | trap => "trap"
  | nop => "nop"

/-- The opcode with a given mnemonic. -/
def ofMnemonic? (name : String) : Option Opcode := all.find? fun op => op.mnemonic == name

end Opcode

/-- A relation between two values. -/
inductive Comparison where
  | eq | ne | lt | le | gt | ge
deriving DecidableEq, Repr

namespace Comparison

/-- The relation that holds exactly when the given one does not. -/
def negate : Comparison → Comparison
  | eq => ne
  | ne => eq
  | lt => ge
  | le => gt
  | gt => le
  | ge => lt

/-- The conditional jump that is taken when the relation holds. -/
def jump : Comparison → Opcode
  | eq => .jeq
  | ne => .jne
  | lt => .jlt
  | le => .jle
  | gt => .jgt
  | ge => .jge

/-- Whether a relation holds between two values. -/
def holds : Comparison → Int32 → Int32 → Bool
  | eq, a, b => a == b
  | ne, a, b => a != b
  | lt, a, b => a < b
  | le, a, b => a ≤ b
  | gt, a, b => b < a
  | ge, a, b => b ≤ a

/-- Whether a relation also tells the order of two values, not only whether they are the same. -/
def isOrder : Comparison → Bool
  | eq | ne => false
  | lt | le | gt | ge => true

end Comparison

end MicroJava

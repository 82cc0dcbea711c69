import MicroJava.Code.Label
import MicroJava.Symbol.Table

/-! # Operands

While an expression is compiled, an operand says where its value is: in the code itself, in a
variable, on the stack, or nowhere yet because a method has still to be called or a condition to be
tested. `load` and `assign` turn that into instructions.
-/

namespace MicroJava

/-- Where the value of an operand is. -/
inductive OperandKind where
  /-- A constant. -/
  | con
  /-- A local variable in the slot `adr` of the frame. -/
  | localVar
  /-- A global variable in the slot `adr` of the data area. -/
  | staticVar
  /-- On top of the stack. -/
  | stack
  /-- In the field `adr` of the object whose reference is on top of the stack. -/
  | field
  /-- In the array element whose array and index are on top of the stack. -/
  | element
  /-- In no place before the method at `adr` is called. -/
  | method
  /-- In no place, but told by jumps. -/
  | condition
  /-- Nowhere, after a problem. -/
  | nothing
deriving DecidableEq, Repr, Inhabited

/-- A value of the program while it is compiled. -/
structure Operand where
  kind : OperandKind
  type : TypeId
  value : Int32 := 0
  adr : Int := 0
  /-- The method of a method operand. -/
  method : Option EntityId := none
  /-- The jumps of a condition. -/
  condition : Condition := {}
deriving DecidableEq, Repr

namespace Operand

/-- An integer constant. -/
def number (value : Int32) : Operand := { kind := .con, type := .int, value }

/-- A character constant. -/
def character (value : Int32) : Operand := { kind := .con, type := .char, value }

/-- A value on top of the stack. -/
def onStack (type : TypeId) : Operand := { kind := .stack, type }

/-- A condition whose last comparison is still to be tested. -/
def ofComparison (comparison : Option Comparison) : Operand :=
  { kind := .condition, type := .none, condition := { comparison } }

/-- Stands in for an expression that could not be compiled. -/
def nothing : Operand := { kind := .nothing, type := .none }

/-- The kind of the operand that an entity denotes. -/
def kindOf (e : Entity) : OperandKind :=
  match e.kind with
  | .con => .con
  | .var => if e.level = 0 then .staticVar else .localVar
  | .method => .method
  | .type | .program => .nothing

/-- The operand that an entity denotes. Types and the program denote none, which is a problem. -/
def ofEntity (id : EntityId) (e : Entity) : Reported Operand :=
  let kind := kindOf e
  { result :=
      { kind, type := e.type, value := e.value, adr := e.adr,
        method := if kind = .method then some id else none }
    problems := if kind = .nothing then [.semantic .notOperand] else [] }

/-- Whether something can be stored in the operand. -/
def isVariable (x : Operand) : Bool :=
  match x.kind with
  | .localVar | .staticVar | .field | .element => true
  | _ => false

/-- Whether the operand never gives a value. -/
def isValueless (x : Operand) : Bool :=
  match x.kind with
  | .condition | .nothing => true
  | _ => false

/-- The operand after its value was pushed. -/
def pushed (x : Operand) : Operand := { x with kind := .stack }

/-- Pushes the value of an operand. The operand stays what it is, so that it can be stored to. -/
def loadAndKeep (x : Operand) (c : CodeBuffer) : Reported CodeBuffer :=
  match x.kind with
  | .con => { result := c.loadConst x.value }
  | .staticVar => { result := c.emit .getStatic [x.adr] }
  | .localVar =>
    match Opcode.loadShort? x.adr with
    | some op => { result := c.emit op [] }
    | none => { result := c.emit .load [x.adr] }
  | .field => { result := c.emit .getField [x.adr] }
  | .element => { result := c.emit (if x.type = .char then .baload else .aload) [] }
  | .stack => { result := c }
  | .method | .condition | .nothing => { result := c, problems := [.semantic .valueExpected] }

/-- Stores the top of the stack in an operand. -/
def store (x : Operand) (c : CodeBuffer) : Reported CodeBuffer :=
  match x.kind with
  | .localVar =>
    match Opcode.storeShort? x.adr with
    | some op => { result := c.emit op [] }
    | none => { result := c.emit .store [x.adr] }
  | .staticVar => { result := c.emit .putStatic [x.adr] }
  | .field => { result := c.emit .putField [x.adr] }
  | .element => { result := c.emit (if x.type = .char then .bastore else .astore) [] }
  | _ => { result := c, problems := [.semantic .variableExpected] }

/-- Calls a method. The offset counts from the end of the instruction. -/
def call (x : Operand) (c : CodeBuffer) : Reported CodeBuffer :=
  let c := c.put .call
  { result := c.putOffset (x.adr - (c.pc + 2 : Nat))
    problems := if x.kind = .method then [] else [.semantic .notMethod] }

/-- Pushes the value of an operand, calling it if it is a method. -/
def loadValue (x : Operand) (c : CodeBuffer) : Reported CodeBuffer :=
  if x.kind = .method then x.call c else x.loadAndKeep c

/-- Stores the value of `y` in `x`. -/
def assign (x y : Operand) (c : CodeBuffer) : Reported CodeBuffer :=
  let loaded := y.loadValue c
  let stored := x.store loaded.result
  { stored with problems := loaded.problems ++ stored.problems }

/-- Doubles what is on the stack of the address of an operand, so that it can be used twice. -/
def keepAddress (x : Operand) (c : CodeBuffer) : CodeBuffer :=
  match x.kind with
  | .field => c.emit .dup []
  | .element => c.emit .dup2 []
  | _ => c

/-- Adds one to an integer variable, or subtracts one from it. -/
def step (x : Operand) (up : Bool) (c : CodeBuffer) : Reported CodeBuffer :=
  let typeProblems := if x.type = .int then [] else [.semantic .variableNotInt]
  match x.kind with
  | .localVar =>
    { result := c.emit .inc [x.adr, if up then 1 else -1], problems := typeProblems }
  | .staticVar | .field | .element =>
    let loaded := x.loadAndKeep (x.keepAddress c)
    let added := (loaded.result.emit (if up then .const1 else .constM1) []).emit .add []
    let stored := x.assign (.onStack .int) added
    { stored with problems := typeProblems ++ loaded.problems ++ stored.problems }
  | _ => { result := c, problems := typeProblems ++ [.semantic .variableExpected] }

end Operand

/-- Ends the code of a method that returns a type. A method that is to return a value must not run
into its end. -/
def CodeBuffer.finishMethod (c : CodeBuffer) (type : TypeId) : CodeBuffer :=
  if type = .none then (c.emit .exit []).emit .ret [] else c.emit .trap [1]

/-- Allocates an array whose size is on top of the stack. The operand tells elements of one byte
from elements of a word. -/
def CodeBuffer.newArray (c : CodeBuffer) (elem : TypeId) : CodeBuffer :=
  c.emit .newArray [if elem = .char then 0 else 1]

end MicroJava

import MicroJava.Compiler.Declaration

/-! # The parts of a compilation

A compilation can be cut in front of the closing brace of every method, in front of the methods and
behind them. The actions for methods and programs are those for their parts, one after the other.
-/

namespace MicroJava.Compile

/-- Two ways to a result that the same action continues with. -/
theorem ite_then {α β : Type} {condition : Prop} [Decidable condition] (m n : Compile α)
    (f : α → Compile β) :
    (if condition then m else n) >>= f = if condition then m >>= f else n >>= f := by
  split <;> rfl

/-! ## Methods -/

/-- What follows the opening parenthesis of a method, up to its closing brace. -/
def openBody (method : EntityId) (name : String) (type : TypeId) (adr : Nat) : Compile Unit := do
  methodHead method name type adr
  expect (.mark .leftBrace)
  repeatWhile (fun kind => kind != .mark .rightBrace && kind != .eof)
    (fun _ => statement maxNesting) ()

private theorem methodBody_eq (method : EntityId) (name : String) (type : TypeId) (adr : Nat) :
    methodBody method name type adr = (do
      openBody method name type adr
      expect (.mark .rightBrace)
      finishBody type) := by
  simp only [methodBody, openBody, block, bind_assoc]

/-- A method from its type on, up to its closing brace. Yields the method and its type. -/
def openMethod : Compile (EntityId × TypeId) := do
  let type ← resultType
  let name ← expectName
  let method ← declare .method name type
  let adr ← pc
  modifyEntity method fun e => { e with adr }
  modify fun s => { s with method := some method }
  expect (.mark .leftParen)
  modify fun s => { s with table := s.table.openScope }
  openBody method name type adr
  return (method, type)

/-- What is done behind the closing brace of a method. -/
def finishMethod (method : EntityId) (type : TypeId) : Compile Unit := do
  finishBody type
  let locals ← leaveScope
  modifyEntity method fun e => { e with locals }
  modify fun s => { s with method := none }

private theorem methodFrom_eq : methodFrom = (do
    let (method, type) ← openMethod
    expect (.mark .rightBrace)
    finishMethod method type) := by
  simp only [methodFrom, openMethod, finishMethod, inScope, methodBody_eq, bind_assoc, pure_bind]

/-- The next method up to its closing brace. Yields nothing if the source ends instead. -/
def nextMethod : Compile (Option (EntityId × TypeId)) := do
  let kind ← lookahead
  if kind != .ident && kind != .keyword .voidKw then
    report (.grammar .methodTypeExpected)
    recoverMethod
  if (← lookahead) = .eof then return none
  return some (← openMethod)

/-- What is left of a method that was compiled up to its closing brace. -/
def closeMethod : Option (EntityId × TypeId) → Compile Unit
  | none => pure ()
  | some (method, type) => do
    expect (.mark .rightBrace)
    finishMethod method type

theorem methodDeclaration_eq : methodDeclaration = nextMethod >>= closeMethod := by
  simp only [methodDeclaration, nextMethod, methodFrom_eq, closeMethod, bind_assoc, pure_bind, ite_then]

/-! ## Programs -/

/-- A program up to the opening brace of its methods. Yields the entity of the program. -/
def openProgram : Compile EntityId := do
  expect (.keyword .programKw)
  let program ← declare .program (← expectName) .none
  modify fun s => { s with table := s.table.openScope }
  globalDeclarations
  return program

/-- What follows the methods of a program. -/
def closeProgram (program : EntityId) : Compile Unit := do
  expect (.mark .rightBrace)
  let _ ← resolve (·.findMethod "main")
  let locals ← leaveScope
  modifyEntity program fun e => { e with locals }

theorem program_eq : program = (do
    let program ← openProgram
    methods
    closeProgram program) := by
  simp only [program, openProgram, closeProgram, programBody, inScope, bind_assoc, pure_bind]

end MicroJava.Compile

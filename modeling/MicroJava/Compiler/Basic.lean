import MicroJava.Code.Operand
import MicroJava.Limits
import MicroJava.Reporter
import MicroJava.Token.Stream

/-! # The state of a compilation

A program is compiled while it is read, token by token. `Compiler` is all that is remembered in
between, and `Compile` an action that changes it. An action fails only with a fault, never because
of the source: problems of the source go to the reporter, and compiling continues.
-/

namespace MicroJava

/-- The state of a compilation. -/
structure Compiler where
  tokens : TokenStream
  reporter : Reporter
  table : SymbolTable
  code : CodeBuffer
  limits : Limits
  /-- The method whose body is being compiled. -/
  method : Option EntityId := none
  /-- Where `break` leads in each loop around the current statement, the innermost first. -/
  loopExits : List Label := []
  /-- How many statements and expressions are open around the current token. -/
  depth : Nat := 0
deriving DecidableEq, Repr

/-- The state before the first token of a source text is read. -/
def Compiler.start (reporter : Reporter) (limits : Limits) (source : List Char) : Compiler :=
  { tokens := .ofSource source, reporter, table := .initial, code := .empty,
    limits := limits.clamped }

/-- A step of a compilation. -/
abbrev Compile := StateT Compiler (Except Fault)

namespace Compile

/-! ## Tokens -/

/-- Consumes the lookahead token. -/
def scan : Compile Unit :=
  modify fun s =>
    let problems := s.tokens.pending
    let tokens := s.tokens.advance
    { s with
      tokens
      reporter := (problems.foldl Reporter.record s.reporter).advance tokens.peek.pos }

/-- Consumes several tokens. -/
def scanMany : Nat → Compile Unit
  | 0 => pure ()
  | n + 1 => do
    scan
    scanMany n

/-- The lookahead token. -/
def peek : Compile Token := return (← get).tokens.peek

/-- The kind of the lookahead token. -/
def lookahead : Compile TokenKind := return (← peek).kind

/-- The token consumed last. -/
def previous : Compile Token := return (← get).tokens.prev

/-- Reports a problem at the lookahead token. -/
def report (problem : Problem) : Compile Unit :=
  modify fun s => { s with reporter := s.reporter.report problem }

/-- Reports a problem if a condition holds. -/
def reportIf (condition : Bool) (problem : Problem) : Compile Unit :=
  if condition then report problem else pure ()

/-- Reports several problems in order. -/
def reportAll (problems : List Problem) : Compile Unit :=
  modify fun s => { s with reporter := problems.foldl Reporter.report s.reporter }

/-- Consumes a token of the expected kind, or reports that it is missing. -/
def expect (kind : TokenKind) : Compile Unit := do
  if (← lookahead) = kind then scan else report (.grammar (.tokenExpected kind))

/-- Consumes an identifier, or reports that it is missing, and yields the name of the token
consumed last. -/
def expectName : Compile String := do
  expect .ident
  return (← previous).name

/-- Runs `body` again and again while the lookahead token is of a certain kind. Every run is to
consume a token, so the tokens left bound the number of runs. -/
def repeatWhile {α : Type} (test : TokenKind → Bool) (body : α → Compile α) (a : α) : Compile α :=
  fun s => go s.tokens.rest a s
where
  go : List Scanned → α → Compiler → Except Fault (α × Compiler)
    | [], a, s => .ok (a, s)
    | _ :: left, a, s =>
      if test s.tokens.peek.kind then
        match body a s with
        | .ok (a, s) => go left a s
        | .error fault => .error fault
      else .ok (a, s)

/-- Runs `item` once, and again after every comma. -/
def commaSeparated {α : Type} (item : α → Compile α) (a : α) : Compile α := do
  let a ← item a
  repeatWhile (· == .mark .comma) (fun a => do scan; item a) a

/-! ## Declarations -/

/-- What is known about an entity. -/
def entityOf (id : EntityId) : Compile Entity := do
  let table := (← get).table
  if table.contains id then return table.entity id else throw (.unknownEntity id.index)

/-- Changes an entity. -/
def modifyEntity (id : EntityId) (f : Entity → Entity) : Compile Unit := do
  if (← get).table.contains id then modify fun s => { s with table := s.table.modify id f }
  else throw (.unknownEntity id.index)

/-- Makes sure that a type exists. -/
def requireType (a : TypeId) : Compile Unit := do
  if (← get).table.types.contains a then pure () else throw (.unknownType a.index)

/-- Asks something about a type. -/
def askType {α : Type} (a : TypeId) (question : TypeTable → TypeId → α) : Compile α := do
  requireType a
  return question (← get).table.types a

/-- Whether values of two types can be compared. -/
def comparable (a b : TypeId) : Compile Bool := do
  requireType a
  requireType b
  return (← get).table.types.comparable a b

/-- Whether a value of one type can be stored where the other is expected. -/
def assignable (source target : TypeId) : Compile Bool := do
  requireType source
  requireType target
  return (← get).table.types.assignable source target

/-- Adds an array type. -/
def addArray (elem : TypeId) : Compile TypeId := do
  requireType elem
  modifyGet fun s =>
    let (type, types) := s.table.types.addArray elem
    (type, { s with table := { s.table with types } })

/-- Adds a class without fields. -/
def addClass : Compile TypeId :=
  modifyGet fun s =>
    let (type, types) := s.table.types.addClass
    (type, { s with table := { s.table with types } })

/-- Sets the fields of a class. -/
def setFields (type : TypeId) (fields : List EntityId) : Compile Unit := do
  requireType type
  modify fun s => { s with table := { s.table with types := s.table.types.setFields type fields } }

/-- Declares a name in the current scope. -/
def declare (kind : EntityKind) (name : String) (type : TypeId) : Compile EntityId :=
  fun s =>
    match s.table.insert kind name type with
    | .error fault => .error fault
    | .ok { result := (id, table), problems } =>
      .ok (id, { s with table, reporter := problems.foldl Reporter.report s.reporter })

/-- Resolves a name with the help of the symbol table. -/
def resolve (find : SymbolTable → Reported EntityId) : Compile EntityId := do
  let { result, problems } := find (← get).table
  reportAll problems
  return result

/-- The declaration that a name means. -/
def find (name : String) : Compile EntityId := resolve (·.find name)

/-- The current scope. -/
def currentScope : Compile Scope := do
  match (← get).table.currentScope with
  | .ok scope => return scope
  | .error fault => throw fault

/-- Leaves the current scope and yields the declarations made there. -/
def leaveScope : Compile (List EntityId) := do
  match (← get).table.closeScope with
  | .ok (declarations, table) =>
    modify fun s => { s with table }
    return declarations
  | .error fault => throw fault

/-- Runs an action in a scope of its own and yields the declarations made there. -/
def inScope (action : Compile Unit) : Compile (List EntityId) := do
  modify fun s => { s with table := s.table.openScope }
  action
  leaveScope

/-! ## Code -/

/-- The address of the next instruction. -/
def pc : Compile Nat := return (← get).code.pc

/-- Adds code. -/
def code (f : CodeBuffer → CodeBuffer) : Compile Unit :=
  modify fun s => { s with code := f s.code }

/-- Adds an instruction. -/
def emit (op : Opcode) (operands : List Int) : Compile Unit := code (·.emit op operands)

/-- Adds code and reports the problems met on the way. -/
def codeReported (f : CodeBuffer → Reported CodeBuffer) : Compile Unit :=
  modify fun s =>
    let { result, problems } := f s.code
    { s with code := result, reporter := problems.foldl Reporter.report s.reporter }

/-- Pushes the value of an operand, calling it if it is a method. -/
def loadValue (x : Operand) : Compile Operand := do
  codeReported x.loadValue
  return x.pushed

/-- Pushes a constant. -/
def loadConst (value : Int32) : Compile Unit := code (·.loadConst value)

/-- Stores the value of `y` in `x`. -/
def assign (x y : Operand) : Compile Unit := codeReported (x.assign y)

/-- Changes the code by a function that also yields a result. -/
def withCode {α : Type} (f : CodeBuffer → Except Fault (α × CodeBuffer)) : Compile α :=
  fun ⟨tokens, reporter, table, code, limits, method, loopExits, depth⟩ =>
    match f code with
    | .ok (a, code) => .ok (a, ⟨tokens, reporter, table, code, limits, method, loopExits, depth⟩)
    | .error fault => .error fault

/-- Adds a jump and yields what became of its label. -/
def jump (label : Label) : Compile Label := withCode fun c => .ok (label.jump .jmp c)

/-- Adds a jump to where a condition holds. -/
def jumpIfTrue (x : Condition) : Compile Condition := withCode fun c => .ok (x.jumpIfTrue c)

/-- Adds a jump to where a condition fails. -/
def jumpIfFalse (x : Condition) : Compile Condition := withCode fun c => .ok (x.jumpIfFalse c)

/-- Lets a label stand for the next instruction. -/
def here (label : Label) : Compile Label := withCode label.here

/-- Runs an action as the body of a loop and yields the label that `break` jumps to. -/
def inLoop (body : Compile Unit) : Compile Label := do
  modify fun s => { s with loopExits := .fresh :: s.loopExits }
  body
  match (← get).loopExits with
  | exit :: exits =>
    modify fun s => { s with loopExits := exits }
    return exit
  | [] => throw .noOpenLoop

end Compile

end MicroJava

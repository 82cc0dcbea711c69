import MicroJava.Compiler.Statement

/-! # Declarations

Declarations enter names into the symbol table. Those of methods also compile the body.
-/

namespace MicroJava.Compile

/-- `ident [[ ]]` -/
def typeName : Compile TypeId := do
  let entity ← entityOf (← find (← expectName))
  reportIf (entity.kind != .type) (.semantic .typeExpected)
  let type := if entity.kind = .type then entity.type else .none
  if (← lookahead) = .mark .leftBracket then
    scan
    expect (.mark .rightBracket)
    addArray type
  else return type

/-- The type of the literal that a token is. -/
def literalType? : TokenKind → Option TypeId
  | .number => some .int
  | .charConst => some .char
  | _ => none

/-- `number | charConst`: the value of a constant of a type. -/
def constantValue (constant : EntityId) (type : TypeId) : Compile Unit := do
  match literalType? (← lookahead) with
  | some literal =>
    if literal = type then
      scan
      let value := (← previous).value
      modifyEntity constant fun e => { e with value }
    else report (.semantic .constantTypeMismatch)
  | none => report (.grammar .literalExpected)

/-- `final Type ident = (number | charConst) ;` -/
def constDeclaration : Compile Unit := do
  expect (.keyword .finalKw)
  let type ← typeName
  let constant ← declare .con (← expectName) type
  expect (.mark .assign)
  constantValue constant type
  expect (.mark .semicolon)

/-- A name in a list of variables. -/
def variableName (type : TypeId) (_ : Unit) : Compile Unit := do
  if (← lookahead) = .ident then
    scan
    let _ ← declare .var (← previous).name type
  else report (.grammar (.tokenExpected .ident))

/-- `Type ident {, ident} ;` -/
def varDeclaration : Compile Unit := do
  commaSeparated (variableName (← typeName)) ()
  expect (.mark .semicolon)

/-- `{VarDecl}` -/
def varDeclarations : Compile Unit := repeatWhile (· == .ident) (fun _ => varDeclaration) ()

/-- The fields of a class. -/
def fieldDeclarations : Compile Unit := do
  varDeclarations
  reportIf ((← get).limits.fields < (← currentScope).varCount) (.capacity .tooManyFields)

/-- `class ident { {VarDecl} }` -/
def classDeclaration : Compile Unit := do
  expect (.keyword .classKw)
  let name ← expectName
  let type ← addClass
  let _ ← declare .type name type
  expect (.mark .leftBrace)
  let fields ← inScope fieldDeclarations
  setFields type fields
  expect (.mark .rightBrace)

/-- `Type ident` in a list of parameters. `state` is the number of parameters so far and the last
of them. -/
def parameter (state : Nat × Option EntityId) : Compile (Nat × Option EntityId) := do
  let type ← typeName
  let id ← declare .var (← expectName) type
  return (state.1 + 1, some id)

/-- Lets the last parameter of a method collect any number of arguments. -/
def collectAt (method last : EntityId) : Compile Unit := do
  let type ← addArray (← entityOf last).type
  modifyEntity last fun e => { e with type }
  modifyEntity method fun e => { e with hasVarArgs := true }

/-- `Type ident {, Type ident} [...]`. With dots at the end, the last parameter is an array that
collects any number of arguments. Yields the number of parameters. -/
def parameters (method : EntityId) : Compile Nat := do
  let (count, last) ← commaSeparated parameter (0, none)
  if (← lookahead) = .mark .ellipsis then
    scan
    match last with
    | none => pure ()
    | some id => collectAt method id
  return count

/-- The parameters of a method, if it has any. -/
def parameterList (method : EntityId) : Compile Unit := do
  if (← lookahead) = .ident then
    let parameterCount ← parameters method
    modifyEntity method fun e => { e with parameterCount }

/-- Checks the head of a method that is called `main` and makes its address the entry point. -/
def enterMain (name : String) (type : TypeId) (parameterCount adr : Nat) : Compile Unit := do
  if name = "main" then
    reportIf (type != .none) (.semantic .mainNotVoid)
    reportIf (parameterCount != 0) (.semantic .mainHasParameters)
    code fun c => { c with entry := some adr }

/-- What stands between the opening parenthesis of a method and its body. -/
def methodHead (method : EntityId) (name : String) (type : TypeId) (adr : Nat) : Compile Unit := do
  parameterList method
  -- Calls in the body, recursive ones too, have to know the parameters.
  let declared := (← currentScope).declarations
  modifyEntity method fun e => { e with locals := declared }
  expect (.mark .rightParen)
  varDeclarations
  let parameterCount := (← entityOf method).parameterCount
  let varCount := (← currentScope).varCount
  reportIf ((← get).limits.locals < varCount) (.capacity .tooManyLocals)
  enterMain name type parameterCount adr
  code (·.enter parameterCount varCount)

/-- The code behind the body of a method. -/
def finishBody (type : TypeId) : Compile Unit := do
  code (·.finishMethod type)
  let farOffsets := (← get).code.farOffsets
  code (·.clearFarOffsets)
  reportIf (farOffsets != 0) (.capacity .jumpTooFar)

/-- What follows the opening parenthesis of a method: parameters, variables and body. -/
def methodBody (method : EntityId) (name : String) (type : TypeId) (adr : Nat) : Compile Unit := do
  methodHead method name type adr
  block (statement maxNesting)
  finishBody type

/-- `Type | void` -/
def resultType : Compile TypeId := do
  if (← lookahead) = .ident then typeName
  else
    scan
    return .none

/-- A method from its type on. -/
def methodFrom : Compile Unit := do
  let type ← resultType
  let name ← expectName
  let method ← declare .method name type
  let adr ← pc
  modifyEntity method fun e => { e with adr }
  modify fun s => { s with method := some method }
  expect (.mark .leftParen)
  let locals ← inScope (methodBody method name type adr)
  modifyEntity method fun e => { e with locals }
  modify fun s => { s with method := none }

/-- `(Type | void) ident ( [FormPars] ) {VarDecl} Block` -/
def methodDeclaration : Compile Unit := do
  let kind ← lookahead
  if kind != .ident && kind != .keyword .voidKw then
    report (.grammar .methodTypeExpected)
    recoverMethod
  if (← lookahead) = .eof then pure () else methodFrom

/-- A global declaration. -/
def globalDeclaration : Compile Unit := do
  match ← lookahead with
  | .keyword .finalKw => constDeclaration
  | .ident => varDeclaration
  | .keyword .classKw => classDeclaration
  | _ =>
    report (.grammar .invalidDeclaration)
    recoverDeclaration

/-- The declarations of a program, up to the opening brace of its methods. -/
def globalDeclarations : Compile Unit := do
  repeatWhile (fun kind => kind != .mark .leftBrace && kind != .eof) (fun _ => globalDeclaration) ()
  let varCount := (← currentScope).varCount
  reportIf ((← get).limits.globals < varCount) (.capacity .tooManyGlobals)
  code fun c => { c with dataSize := varCount }
  expect (.mark .leftBrace)

/-- The methods of a program. -/
def methods : Compile Unit :=
  repeatWhile (fun kind => kind != .mark .rightBrace && kind != .eof) (fun _ => methodDeclaration) ()

/-- What follows the name of a program: its declarations and methods. -/
def programBody : Compile Unit := do
  globalDeclarations
  methods
  expect (.mark .rightBrace)
  let _ ← resolve (·.findMethod "main")

/-- `program ident {ConstDecl | VarDecl | ClassDecl} { {MethodDecl} }` -/
def program : Compile Unit := do
  expect (.keyword .programKw)
  let program ← declare .program (← expectName) .none
  let locals ← inScope programBody
  modifyEntity program fun e => { e with locals }

/-- A whole source text. -/
def source : Compile Unit := do
  scan
  program
  expect .eof

end MicroJava.Compile

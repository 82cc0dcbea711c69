import MicroJava.Compiler.Recovery

/-! # Expressions

Each part of an expression is compiled by an action that is given the action for the expressions
nested in it. `expression` ties the knot: it goes one level deeper each time and skips what lies too
deep.
-/

namespace MicroJava.Compile

open TypeTable

/-! ## Designators: `ident {. ident | [ Expr ]}` -/

/-- The operand that a name denotes. -/
def operandOf (name : String) : Compile Operand := do
  let id ← find name
  let { result, problems } := Operand.ofEntity id (← entityOf id)
  reportAll problems
  return result

/-- `. ident` after an operand. -/
def fieldSelector (x : Operand) : Compile Operand := do
  reportIf (!(← askType x.type isClass)) (.semantic .notClass)
  scan
  let x ← loadValue x
  let name ← expectName
  requireType x.type
  let field ← entityOf (← resolve (·.findField name x.type))
  return { x with kind := .field, type := field.type, adr := field.adr }

/-- `[ Expr ]` after an operand. -/
def indexSelector (nested : Compile Operand) (x : Operand) : Compile Operand := do
  reportIf (!x.isVariable) (.semantic .valueExpected)
  scan
  let x ← loadValue x
  let index ← nested
  reportIf (index.type != .int) (.semantic .indexNotInt)
  let _ ← loadValue index
  reportIf (!(← askType x.type isArray)) (.semantic .notArray)
  let elem ← askType x.type elemType
  expect (.mark .rightBracket)
  return { x with kind := .element, type := elem }

/-- Whether a token continues a designator. -/
def startsSelector (kind : TokenKind) : Bool :=
  kind == .mark .period || kind == .mark .leftBracket

/-- A selector of a designator. -/
def selector (nested : Compile Operand) (x : Operand) : Compile Operand := do
  if (← lookahead) = .mark .period then fieldSelector x else indexSelector nested x

/-- A designator. -/
def designator (nested : Compile Operand) : Compile Operand := do
  repeatWhile startsSelector (selector nested) (← operandOf (← expectName))

/-! ## Calls: `( [Expr {, Expr}] [# number [Expr {, Expr}]] )` -/

/-- Calls the method whose arguments are on the stack. Predeclared methods need no call. -/
def emitCall (x : Operand) : Compile Unit :=
  match x.method with
  | none => pure ()
  | some id =>
    if id = SymbolTable.chr ∨ id = SymbolTable.ord then pure ()
    else if id = SymbolTable.len then emit .arrayLength []
    else codeReported x.call

/-- An argument, which is to fit the first of the parameters that are left. `state` is the number
of arguments so far and the parameters left. -/
def argument (nested : Compile Operand) (state : Nat × List EntityId) :
    Compile (Nat × List EntityId) := do
  let x ← loadValue (← nested)
  match state with
  | (count, []) => return (count + 1, [])
  | (count, parameter :: parameters) =>
    let fits ← assignable x.type (← entityOf parameter).type
    reportIf (!fits) (.semantic .parameterTypeMismatch)
    return (count + 1, parameters)

/-- An element of the array of variable arguments. `state` is the number of elements so far and the
type that elements have; if that is no type, the first element decides. -/
def varArgument (nested : Compile Operand) (state : Nat × TypeId) : Compile (Nat × TypeId) := do
  let (count, elem) := state
  emit .dup []
  loadConst (Int32.ofNat count)
  let x ← nested
  let elem := if elem = .none then x.type else elem
  let fits ← assignable x.type elem
  reportIf (!fits) (.semantic .parameterTypeMismatch)
  let _ ← loadValue x
  emit (if elem = .char then .bastore else .astore) []
  return (count + 1, elem)

/-- `[Expr {, Expr}]`, given the action for an expression of the list. -/
def expressionList {β : Type} (item : β → Compile β) (b : β) : Compile β := do
  if (← lookahead).startsExpression then commaSeparated item b else return b

/-- `# number [Expr {, Expr}]`: an array of the stated size, filled with the values given. -/
def varArguments (nested : Compile Operand) (elem : TypeId) : Compile Unit := do
  expect (.mark .hash)
  expect .number
  let size := (← previous).value
  loadConst size
  code (·.newArray elem)
  let (count, _) ← expressionList (varArgument nested) (0, elem)
  reportIf (size.toInt < count) (.semantic .tooManyVarArgs)
  reportIf (count < size.toInt) (.semantic .tooFewVarArgs)

/-- The fixed parameters of a method, and the one that collects further arguments. -/
def splitParameters (e : Entity) : List EntityId × Option EntityId :=
  if e.hasVarArgs then (e.parameters.dropLast, e.parameters.getLast?) else (e.parameters, none)

/-- The parameters of a method, if there is one. -/
def askParameters (method : Option EntityId) : Compile (List EntityId × Option EntityId) := do
  match method with
  | some id => return splitParameters (← entityOf id)
  | none => return ([], none)

/-- The type of the elements that a parameter collects, if there is one. -/
def askCollected (parameter : Option EntityId) : Compile (Option TypeId) := do
  match parameter with
  | some id => return some (← askType (← entityOf id).type elemType)
  | none => return none

/-- The arguments that a parameter collects, or an empty array in their place. -/
def collectArguments (nested : Compile Operand) (called : Bool) (elem : Option TypeId) :
    Compile Unit := do
  if (← lookahead) = .mark .hash then
    varArguments nested (elem.getD .none)
    reportIf (called && elem.isNone) (.semantic .noVarArgs)
  else
    match elem with
    | some elem =>
      loadConst 0
      code (·.newArray elem)
    | none => pure ()

/-- The arguments of a call. Yields the operand that is to be called, which names no method any
more if it was none. -/
def arguments (nested : Compile Operand) (x : Operand) : Compile Operand := do
  expect (.mark .leftParen)
  let method := if x.kind = .method then x.method else none
  reportIf method.isNone (.semantic .notMethod)
  let (parameters, varArg) ← askParameters method
  let (count, _) ← expressionList (argument nested) (0, parameters)
  reportIf (method.isSome && parameters.length < count) (.semantic .tooManyArguments)
  reportIf (method.isSome && count < parameters.length) (.semantic .tooFewArguments)
  collectArguments nested method.isSome (← askCollected varArg)
  expect (.mark .rightParen)
  return { x with method }

/-- A call with its arguments. -/
def methodCall (nested : Compile Operand) (x : Operand) : Compile Operand := do
  let x ← arguments nested x
  emitCall x
  return x

/-! ## Factors -/

/-- `new ident [[ Expr ]]` -/
def newObject (nested : Compile Operand) : Compile Operand := do
  expect (.keyword .newKw)
  let entity ← entityOf (← find (← expectName))
  if (← lookahead) = .mark .leftBracket then
    scan
    reportIf (entity.kind != .type) (.semantic .typeExpected)
    let size ← nested
    reportIf (size.type != .int) (.semantic .sizeNotInt)
    let _ ← loadValue size
    code (·.newArray entity.type)
    let type ← addArray entity.type
    expect (.mark .rightBracket)
    return .onStack type
  else
    reportIf (entity.kind != .type) (.semantic .typeExpected)
    reportIf (!(← askType entity.type isClass)) (.semantic .classTypeExpected)
    let fields ← askType entity.type fields
    emit .new [fields.length]
    return .onStack entity.type

/-- A designator as a value, with its arguments if it is called. A method that is not called is no
value. -/
def designatorFactor (nested : Compile Operand) : Compile Operand := do
  let x ← designator nested
  if (← lookahead) = .mark .leftParen then
    reportIf (x.kind != .method) (.semantic .notMethod)
    reportIf (x.type == .none) (.semantic .callOfVoid)
    return (← methodCall nested x).pushed
  else if x.kind = .method then return { x with kind := .nothing }
  else return x

/-- A factor. -/
def factor (nested : Compile Operand) : Compile Operand := do
  match ← lookahead with
  | .ident => designatorFactor nested
  | .number =>
    scan
    return .number (← previous).value
  | .charConst =>
    scan
    return .character (← previous).value
  | .keyword .newKw => newObject nested
  | .mark .leftParen =>
    scan
    let x ← nested
    expect (.mark .rightParen)
    return x
  | _ =>
    report (.grammar .invalidFactor)
    return .nothing

/-! ## Terms and sums -/

/-- The instruction for a multiplying operator. -/
def mulOperation? : TokenKind → Option Opcode
  | .mark .times => some .mul
  | .mark .slash => some .div
  | .mark .percent => some .rem
  | _ => none

/-- The instruction for an adding operator. -/
def addOperation? : TokenKind → Option Opcode
  | .mark .plus => some .add
  | .mark .minus => some .sub
  | _ => none

/-- An operator and what follows it. -/
def operation (operation? : TokenKind → Option Opcode) (item : Compile Operand) (x : Operand) :
    Compile Operand := do
  match operation? (← lookahead) with
  | none => return x
  | some op =>
    let x ← loadValue x
    scan
    let y ← item
    reportIf (x.type != .int || y.type != .int) (.semantic .operandNotInt)
    let _ ← loadValue y
    emit op []
    return x

/-- `Item {Operator Item}`, where the operators are those that have an instruction. -/
def binaryChain (operation? : TokenKind → Option Opcode) (item : Compile Operand) :
    Operand → Compile Operand :=
  repeatWhile (fun kind => (operation? kind).isSome) (operation operation? item)

/-- `Factor {Mulop Factor}` -/
def term (nested : Compile Operand) : Compile Operand := do
  binaryChain mulOperation? (factor nested) (← factor nested)

/-- The operand with its sign changed. Constants change at once, other values on the stack. -/
def negate (x : Operand) : Compile Operand := do
  reportIf (x.type != .int) (.semantic .operandNotInt)
  if x.kind = .con then return { x with value := -x.value }
  else
    let x ← loadValue x
    emit .neg []
    return x

/-- `[-] Term {Addop Term}` -/
def sum (nested : Compile Operand) : Compile Operand := do
  let x ← do
    if (← lookahead) = .mark .minus then
      scan
      negate (← term nested)
    else term nested
  binaryChain addOperation? (term nested) x

/-- Takes the place of an expression that is nested too deeply. -/
def deepExpression : Compile Operand := do
  report (.capacity .nestingTooDeep)
  skipExpression
  return .nothing

/-- An expression, with `levels` left for what is nested in each other. -/
def expression : (levels : Nat) → Compile Operand
  | 0 => deepExpression
  | levels + 1 => deeper (sum (expression levels)) deepExpression

end MicroJava.Compile

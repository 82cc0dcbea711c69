import MicroJava.Compiler.Expression

/-! # Statements and conditions

A condition compiles to jumps. Each alternative jumps to where the whole condition holds as soon as
it does, and each comparison of an alternative jumps to the next alternative as soon as it fails.
The jump on the last comparison is left to the statement that has the condition.
-/

namespace MicroJava.Compile

/-! ## Conditions -/

/-- The relation that a token stands for. -/
def relation? : TokenKind → Option Comparison
  | .mark .equal => some .eq
  | .mark .notEqual => some .ne
  | .mark .greater => some .gt
  | .mark .greaterEqual => some .ge
  | .mark .less => some .lt
  | .mark .lessEqual => some .le
  | _ => none

/-- The relation of a comparison. -/
def relation : Compile (Option Comparison) := do
  match relation? (← lookahead) with
  | some comparison =>
    scan
    return some comparison
  | none =>
    report (.grammar .relationExpected)
    return none

/-- `Expr Relop Expr` -/
def comparison (expr : Compile Operand) : Compile (Option Comparison) := do
  let x ← loadValue (← expr)
  let op ← relation
  let y ← loadValue (← expr)
  reportIf (!(← comparable x.type y.type)) (.semantic .incompatibleTypes)
  let reference ← askType x.type TypeTable.isReference
  reportIf (reference && op.any Comparison.isOrder) (.semantic .orderedReferences)
  return op

/-- Another comparison of an alternative. -/
def nextComparison (expr : Compile Operand) (x : Condition) : Compile Condition := do
  let x ← jumpIfFalse x
  scan
  return { x with comparison := ← comparison expr }

/-- `Comparison {&& Comparison}` -/
def conjunction (expr : Compile Operand) : Compile Condition := do
  repeatWhile (· == .mark .andAnd) (nextComparison expr) { comparison := ← comparison expr }

/-- Another alternative of a condition. -/
def nextAlternative (expr : Compile Operand) (x : Condition) : Compile Condition := do
  let x ← jumpIfTrue x
  scan
  let _ ← here x.onFalse
  let next ← conjunction expr
  return { x with comparison := next.comparison, onFalse := next.onFalse }

/-- `Conjunction {|| Conjunction}` -/
def condition (expr : Compile Operand) : Compile Condition := do
  let first ← conjunction expr
  repeatWhile (· == .mark .orOr) (nextAlternative expr)
    { comparison := first.comparison, onFalse := first.onFalse }

/-- `( Condition )` before a statement: control goes on where the condition holds. Yields the label
of where it fails. -/
def guarded (expr : Compile Operand) : Compile Label := do
  let x ← condition expr
  let x ← jumpIfFalse x
  let _ ← here x.onTrue
  expect (.mark .rightParen)
  return x.onFalse

/-! ## Statements that begin with a designator -/

/-- The instruction for a compound assignment. -/
def assignOperation? : TokenKind → Option Opcode
  | .mark .plusAssign => some .add
  | .mark .minusAssign => some .sub
  | .mark .timesAssign => some .mul
  | .mark .slashAssign => some .div
  | .mark .percentAssign => some .rem
  | _ => none

/-- `= Expr` after a designator. -/
def assignment (expr : Compile Operand) (x : Operand) : Compile Unit := do
  scan
  let y ← expr
  reportIf (!x.isVariable) (.semantic .variableExpected)
  reportIf y.isValueless (.semantic .valueExpected)
  reportIf (!(← assignable y.type x.type)) (.semantic .incompatibleTypes)
  assign x y

/-- `+= Expr` or the like after a designator. -/
def compoundAssignment (expr : Compile Operand) (x : Operand) (op : Opcode) : Compile Unit := do
  scan
  code x.keepAddress
  reportIf (!x.isVariable) (.semantic .variableExpected)
  codeReported x.loadAndKeep
  let y ← expr
  reportIf y.isValueless (.semantic .valueExpected)
  reportIf (x.type != .int || y.type != .int) (.semantic .operandNotInt)
  let _ ← loadValue y
  emit op []
  assign x (.onStack .int)

/-- A call whose result is not used. -/
def callStatement (expr : Compile Operand) (x : Operand) : Compile Unit := do
  let x ← methodCall expr x
  if x.type = .none then pure () else emit .pop []

/-- What follows a designator in a statement, up to the semicolon. -/
def designatorUse (expr : Compile Operand) (x : Operand) : Compile Unit := do
  let kind ← lookahead
  match kind with
  | .mark .assign => assignment expr x
  | .mark .leftParen => callStatement expr x
  | .mark .plusPlus =>
    codeReported (x.step true)
    scan
  | .mark .minusMinus =>
    codeReported (x.step false)
    scan
  | _ =>
    match assignOperation? kind with
    | some op => compoundAssignment expr x op
    | none => report (.grammar .designatorUseExpected)

/-- An assignment, call, increment or decrement. -/
def designatorStatement (expr : Compile Operand) : Compile Unit := do
  let x ← designator expr
  designatorUse expr x
  expect (.mark .semicolon)

/-! ## Other statements -/

/-- `if ( Condition ) Statement [else Statement]` -/
def ifStatement (nested : Compile Unit) (expr : Compile Operand) : Compile Unit := do
  scan
  expect (.mark .leftParen)
  let onFalse ← guarded expr
  nested
  if (← lookahead) = .keyword .elseKw then
    let finish ← jump .fresh
    let _ ← here onFalse
    scan
    nested
    let _ ← here finish
  else
    let _ ← here onFalse

/-- `while ( Condition ) Statement` -/
def whileStatement (nested : Compile Unit) (expr : Compile Operand) : Compile Unit := do
  scan
  expect (.mark .leftParen)
  let top ← here .fresh
  let onFalse ← guarded expr
  let exit ← inLoop nested
  let _ ← jump top
  let _ ← here exit
  let _ ← here onFalse

/-- `break ;` -/
def breakStatement : Compile Unit := do
  scan
  match (← get).loopExits with
  | [] => report (.semantic .breakOutsideLoop)
  | exit :: exits =>
    let exit ← jump exit
    modify fun s => { s with loopExits := exit :: exits }
  expect (.mark .semicolon)

/-- The type that the method around a statement returns. -/
def returnedType : Compile TypeId := do
  match (← get).method with
  | some id => return (← entityOf id).type
  | none => return .none

/-- The value that a method of a type returns, if it has one. -/
def returnedValue (expr : Compile Operand) (type : TypeId) : Compile Unit := do
  if (← lookahead).startsExpression then
    reportIf (type == .none) (.semantic .returnFromVoid)
    let x ← loadValue (← expr)
    reportIf (!(← assignable x.type type)) (.semantic .returnTypeMismatch)
  else reportIf (type != .none) (.semantic .returnValueMissing)

/-- `return [Expr] ;` -/
def returnStatement (expr : Compile Operand) : Compile Unit := do
  scan
  returnedValue expr (← returnedType)
  emit .exit []
  emit .ret []
  expect (.mark .semicolon)

/-- `read ( Designator ) ;` -/
def readStatement (expr : Compile Operand) : Compile Unit := do
  scan
  expect (.mark .leftParen)
  let x ← designator expr
  reportIf (!x.isVariable) (.semantic .variableExpected)
  reportIf (x.type != .int && x.type != .char) (.semantic .notReadable)
  emit (if x.type = .char then .bread else .read) []
  assign x (.onStack x.type)
  expect (.mark .rightParen)
  expect (.mark .semicolon)

/-- The number of decimal digits of a number without its sign. -/
def digitCount (value : Int32) : Nat := (Nat.toDigits 10 value.toInt.natAbs).length

/-- The width that a value is printed with if none is stated: just enough for an integer constant,
and one otherwise. -/
def defaultWidth (x : Operand) : Int32 :=
  if x.kind = .con ∧ x.type = .int then Int32.ofNat (digitCount x.value) else 1

/-- The width after a comma, or another one. -/
def printWidth (other : Int32) : Compile Int32 := do
  if (← lookahead) = .mark .comma then
    scan
    expect .number
    return (← previous).value
  else return other

/-- Prints the value on top of the stack, if its type can be printed. -/
def printValue (type : TypeId) (width : Int32) : Compile Unit := do
  if type = .int then
    loadConst width
    emit .print []
  else if type = .char then
    loadConst width
    emit .bprint []
  else report (.semantic .notPrintable)

/-- `print ( Expr [, number] ) ;` -/
def printStatement (expr : Compile Operand) : Compile Unit := do
  scan
  expect (.mark .leftParen)
  let x ← expr
  let width ← printWidth (defaultWidth x)
  let x ← loadValue x
  printValue x.type width
  expect (.mark .rightParen)
  expect (.mark .semicolon)

/-- `{ {Statement} }` -/
def block (nested : Compile Unit) : Compile Unit := do
  expect (.mark .leftBrace)
  repeatWhile (fun kind => kind != .mark .rightBrace && kind != .eof) (fun _ => nested) ()
  expect (.mark .rightBrace)

/-- A statement, given the actions for the statements and expressions nested in it. -/
def singleStatement (nested : Compile Unit) (expr : Compile Operand) : Compile Unit := do
  match ← lookahead with
  | .ident => designatorStatement expr
  | .keyword .ifKw => ifStatement nested expr
  | .keyword .whileKw => whileStatement nested expr
  | .keyword .breakKw => breakStatement
  | .keyword .returnKw => returnStatement expr
  | .keyword .readKw => readStatement expr
  | .keyword .printKw => printStatement expr
  | .mark .leftBrace => block nested
  | .mark .semicolon => scan
  | _ =>
    report (.grammar .invalidStatement)
    recoverStatement

/-- Takes the place of a statement that is nested too deeply. -/
def deepStatement : Compile Unit := do
  report (.capacity .nestingTooDeep)
  skipStatement

/-- A statement, with `levels` left for what is nested in each other. -/
def statement : (levels : Nat) → Compile Unit
  | 0 => deepStatement
  | levels + 1 => deeper (singleStatement (statement levels) (expression levels)) deepStatement

end MicroJava.Compile

import MicroJava.Token.Kind
import MicroJava.Text.Position

/-! # Problems of a source text

What can be wrong with a program, sorted by the stage that notices it, and the one place where each
problem gets its wording. A diagnostic is a problem at a place.
-/

namespace MicroJava

/-- Characters that do not form tokens. -/
inductive LexicalProblem where
  | emptyCharConst
  | undefinedEscape (c : Char)
  | missingQuote
  | invalidChar (c : Char)
  | numberTooBig (digits : String)
  | unclosedComment
  | unclosedCharConst
  | lineEndInCharConst
deriving DecidableEq, Repr

/-- Tokens that do not follow the grammar. -/
inductive GrammarProblem where
  | addOperatorExpected
  | assignOperatorExpected
  | literalExpected
  | designatorUseExpected
  | invalidDeclaration
  | invalidFactor
  | invalidStatement
  | methodTypeExpected
  | mulOperatorExpected
  | relationExpected
  | tokenExpected (kind : TokenKind)
deriving DecidableEq, Repr

/-- Names, types and uses that do not fit together. -/
inductive SemanticProblem where
  | indexNotInt
  | sizeNotInt
  | constantTypeMismatch
  | orderedReferences
  | incompatibleTypes
  | callOfVoid
  | noVarArgs
  | tooFewArguments
  | tooManyArguments
  | tooFewVarArgs
  | tooManyVarArgs
  | methodNotFound (name : String)
  | mainHasParameters
  | mainNotVoid
  | notArray
  | notClass
  | classTypeExpected
  | variableNotInt
  | operandNotInt
  | breakOutsideLoop
  | notMethod
  | typeExpected
  | parameterTypeMismatch
  | notPrintable
  | notReadable
  | returnValueMissing
  | returnTypeMismatch
  | returnFromVoid
  | alreadyDeclared (name : String)
  | notField (name : String)
  | notFound (name : String)
  | notOperand
  | valueExpected
  | variableExpected
deriving DecidableEq, Repr

/-- Programs too large for the instruction set or for the limits in force. -/
inductive CapacityProblem where
  | tooManyFields
  | tooManyGlobals
  | tooManyLocals
  | jumpTooFar
  | nestingTooDeep
deriving DecidableEq, Repr

/-- Anything that can be wrong with a source text. -/
inductive Problem where
  | lexical (p : LexicalProblem)
  | grammar (p : GrammarProblem)
  | semantic (p : SemanticProblem)
  | capacity (p : CapacityProblem)
deriving DecidableEq, Repr

/-- The wording of a lexical problem. -/
def LexicalProblem.message : LexicalProblem → String
  | emptyCharConst => "empty character constant"
  | undefinedEscape c => s!"undefined escape character sequence '\\{c}'"
  | missingQuote => "missing ' at end of character constant"
  | invalidChar c => s!"invalid character {c}"
  | numberTooBig digits => s!"{digits} too big for integer constant"
  | unclosedComment => "unexpected end of file in comment"
  | unclosedCharConst => "unexpected end of file in char"
  | lineEndInCharConst => "illegal line end in character constant"

/-- The wording of a grammar problem. -/
def GrammarProblem.message : GrammarProblem → String
  | addOperatorExpected => "additive operator (+ or -) expected"
  | assignOperatorExpected => "assignment operator (=, +=, -=, *=, /=, %=) expected"
  | literalExpected => "number or character constant expected"
  | designatorUseExpected =>
    "assignment, method call, increment (++) or decrement (--) expected"
  | invalidDeclaration => "invalid global declaration"
  | invalidFactor =>
    "invalid start of factor: identifier, number, character constant, new or ( expected"
  | invalidStatement =>
    "invalid start of statement: identifier, if, while, break, return, read, print, '\x7b' " ++
      "or ; expected"
  | methodTypeExpected => "type name or void expected"
  | mulOperatorExpected => "multiplicative operator (*, /, %) expected"
  | relationExpected => "relational operator (==, !=, >, >=, <, <=) expected"
  | tokenExpected kind => s!"{kind.text} expected"

/-- The wording of a semantic problem. -/
def SemanticProblem.message : SemanticProblem → String
  | indexNotInt => "array index must be an integer"
  | sizeNotInt => "array size must be an integer"
  | constantTypeMismatch => "value does not match constant type"
  | orderedReferences => "only (un)equality checks are allowed for reference types"
  | incompatibleTypes => "incompatible types"
  | callOfVoid => "invalid call of void method"
  | noVarArgs => "called method has no vararg parameter"
  | tooFewArguments => "less actual than formal parameters"
  | tooManyArguments => "more actual than formal parameters"
  | tooFewVarArgs => "less actual than stated varargs"
  | tooManyVarArgs => "more actual than stated varargs"
  | methodNotFound name => s!"method {name} not found"
  | mainHasParameters => "main method must not have any parameters"
  | mainNotVoid => "main method must return void"
  | notArray => "indexed object is not an array"
  | notClass => "dereferenced object is not a class"
  | classTypeExpected => "class type expected"
  | variableNotInt => "variable must be an integer"
  | operandNotInt => "operand(s) must be of type int"
  | breakOutsideLoop => "break is not within a loop"
  | notMethod => "called object is not a method"
  | typeExpected => "type expected"
  | parameterTypeMismatch => "parameter type mismatch"
  | notPrintable => "can only print int or char values"
  | notReadable => "can only read int or char values"
  | returnValueMissing => "return expression required"
  | returnTypeMismatch => "return type must match method type"
  | returnFromVoid => "void method must not return a value"
  | alreadyDeclared name => s!"{name} already declared"
  | notField name => s!"{name} is not a field"
  | notFound name => s!"{name} not found"
  | notOperand => "cannot create code operand for this kind of symbol table object"
  | valueExpected => "value expected"
  | variableExpected => "left-hand side of assignment must be a variable"

/-- The wording of a capacity problem. -/
def CapacityProblem.message : CapacityProblem → String
  | tooManyFields => "too many fields"
  | tooManyGlobals => "too many global variables"
  | tooManyLocals => "too many local variables"
  | jumpTooFar => "jump or call target too far away"
  | nestingTooDeep => "nesting too deep"

namespace Problem

/-- The wording of a problem. -/
def message : Problem → String
  | lexical p => p.message
  | grammar p => p.message
  | semantic p => p.message
  | capacity p => p.message

/-- How many details the wording of a problem mentions. -/
def parameterCount : Problem → Nat
  | lexical (.undefinedEscape _) | lexical (.invalidChar _) | lexical (.numberTooBig _)
  | grammar (.tokenExpected _)
  | semantic (.methodNotFound _) | semantic (.alreadyDeclared _)
  | semantic (.notField _) | semantic (.notFound _) => 1
  | _ => 0

/-- Whether the lexer found the problem. -/
def isLexical : Problem → Bool
  | lexical _ => true
  | _ => false

end Problem

/-- A problem at a place of the source. -/
structure Diagnostic where
  pos : Position
  problem : Problem
deriving DecidableEq, Repr

namespace Diagnostic

/-- The line that tells a user about the problem. -/
def message (d : Diagnostic) : String :=
  s!"-- line {d.pos.line} col {d.pos.col}: {d.problem.message}"

/-- The messages of several diagnostics, a line each. -/
def messages (ds : List Diagnostic) : String :=
  "\n".intercalate (ds.map message)

end Diagnostic

end MicroJava

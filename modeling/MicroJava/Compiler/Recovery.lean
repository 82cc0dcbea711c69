import MicroJava.Compiler.Basic

/-! # Going on after a problem

After a grammar problem tokens are skipped up to one where a declaration or a statement can begin
or end. Parts of a program that are nested too deeply are skipped as a whole.
-/

namespace MicroJava

/-! ## Synchronisation -/

namespace TokenKind

/-- Whether a global declaration or the methods can begin with such a token. -/
def startsDeclaration : TokenKind → Bool
  | keyword .finalKw | keyword .classKw | mark .leftBrace | eof => true
  | _ => false

/-- Whether a method without result can begin with such a token. -/
def startsMethod : TokenKind → Bool
  | keyword .voidKw | eof => true
  | _ => false

/-- Whether a statement can begin or end with such a token. -/
def boundsStatement : TokenKind → Bool
  | keyword .ifKw | keyword .whileKw | keyword .breakKw | keyword .returnKw | keyword .readKw
  | keyword .printKw | keyword .elseKw | mark .semicolon | mark .rightBrace | eof => true
  | _ => false

end TokenKind

/-- Whether a token names a type, and so may begin a declaration. -/
def SymbolTable.namesType (t : SymbolTable) (token : Token) : Bool :=
  token.kind == .ident && t.isTypeName token.name

namespace Compile

/-- Drops further reports until some tokens were consumed. -/
def holdReports : Compile Unit := modify fun s => { s with reporter := s.reporter.hold }

/-- Consumes tokens up to the first one that satisfies `stop`. -/
def skipUntil (stop : Token → Bool) : Compile Unit := do
  scanMany ((← get).tokens.countUntil stop)

/-- Consumes a token and those after it, up to the beginning of a global declaration. -/
def recoverDeclaration : Compile Unit := do
  scan
  let table := (← get).table
  skipUntil fun token => token.kind.startsDeclaration || table.namesType token
  holdReports

/-- Consumes a token and those after it, up to the beginning of a method. -/
def recoverMethod : Compile Unit := do
  scan
  let table := (← get).table
  skipUntil fun token => token.kind.startsMethod || table.namesType token
  holdReports

/-- Consumes tokens up to the beginning or end of a statement. No statement begins with `else`, so
one that stands first is consumed too. -/
def recoverStatement : Compile Unit := do
  if (← lookahead) = .keyword .elseKw then scan
  skipUntil fun token => token.kind.boundsStatement
  holdReports

end Compile

/-! ## Nesting that is too deep -/

/-- What to do with a token while something is skipped. -/
inductive Skip where
  /-- Leave it; nothing more is skipped. -/
  | stop
  /-- Skip it as the last one. -/
  | last
  /-- Skip it and go on, with a number of brackets open. -/
  | more (brackets : Nat)
deriving DecidableEq, Repr

/-- How the rest of an expression is skipped, up to the bracket that closes it. -/
def Skip.expression (brackets : Nat) : TokenKind → Skip
  | .mark .leftParen | .mark .leftBracket => .more (brackets + 1)
  | .mark .rightParen | .mark .rightBracket =>
    match brackets with
    | 0 => .stop
    | brackets + 1 => .more brackets
  | .mark .semicolon | .mark .rightBrace | .eof => .stop
  | _ => .more brackets

/-- How a statement is skipped: up to a semicolon, or to the end of its first block. -/
def Skip.statement (brackets : Nat) : TokenKind → Skip
  | .eof => .stop
  | .mark .semicolon =>
    match brackets with
    | 0 => .last
    | brackets + 1 => .more (brackets + 1)
  | .mark .leftBrace => .more (brackets + 1)
  | .mark .rightBrace =>
    match brackets with
    | 0 => .stop
    | 1 => .last
    | brackets + 2 => .more (brackets + 1)
  | _ => .more brackets

/-- Counts the tokens that are skipped from a token of the given kind on, `seen` before it. -/
def Skip.count (step : Nat → TokenKind → Skip) (seen brackets : Nat) (kind : TokenKind) :
    List Scanned → Nat
  | [] =>
    match step brackets kind with
    | .stop => seen
    | .last | .more _ => seen + 1
  | next :: rest =>
    match step brackets kind with
    | .stop => seen
    | .last => seen + 1
    | .more brackets => count step (seen + 1) brackets next.token.kind rest

/-- The number of tokens that are skipped from the lookahead on. -/
def TokenStream.countSkipped (s : TokenStream) (step : Nat → TokenKind → Skip) : Nat :=
  Skip.count step 0 0 s.peek.kind s.rest

namespace Compile

/-- Skips the rest of an expression that is nested too deeply. -/
def skipExpression : Compile Unit := do
  scanMany ((← get).tokens.countSkipped Skip.expression)

/-- Skips a statement that is nested too deeply. -/
def skipStatement : Compile Unit := do
  scanMany ((← get).tokens.countSkipped Skip.statement)

/-- How deep statements and expressions may be nested in each other. -/
def maxNesting : Nat := 200

/-- Runs an action one level deeper, and another one in its place where that is too deep. -/
def deeper {α : Type} (action tooDeep : Compile α) : Compile α := do
  if maxNesting ≤ (← get).depth then
    tooDeep
  else
    modify fun s => { s with depth := s.depth + 1 }
    let a ← action
    modify fun s => { s with depth := s.depth - 1 }
    return a

end Compile

end MicroJava

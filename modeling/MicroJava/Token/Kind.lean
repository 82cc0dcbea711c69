/-! # Kinds of tokens

The reserved words, the punctuation and operator marks, and the kinds of tokens they belong to.
Every kind has the text by which problem messages refer to it and the label it has in a token
table.
-/

namespace MicroJava

/-- The reserved words, in alphabetical order. -/
inductive Keyword where
  | breakKw | classKw | elseKw | finalKw | ifKw | newKw
  | printKw | programKw | readKw | returnKw | voidKw | whileKw
deriving DecidableEq, Repr, Inhabited

namespace Keyword

/-- Every reserved word once, in order. -/
def all : List Keyword :=
  [.breakKw, .classKw, .elseKw, .finalKw, .ifKw, .newKw,
    .printKw, .programKw, .readKw, .returnKw, .voidKw, .whileKw]

/-- The spelling of a reserved word. -/
def spelling : Keyword → String
  | breakKw => "break"
  | classKw => "class"
  | elseKw => "else"
  | finalKw => "final"
  | ifKw => "if"
  | newKw => "new"
  | printKw => "print"
  | programKw => "program"
  | readKw => "read"
  | returnKw => "return"
  | voidKw => "void"
  | whileKw => "while"

/-- The reserved word with a given spelling. Case matters. -/
def ofSpelling? (word : String) : Option Keyword :=
  all.find? fun keyword => keyword.spelling == word

/-- The name of a reserved word in a token table. -/
def label : Keyword → String
  | breakKw => "Break"
  | classKw => "Class"
  | elseKw => "Else"
  | finalKw => "Final"
  | ifKw => "If"
  | newKw => "New"
  | printKw => "Print"
  | programKw => "Program"
  | readKw => "Read"
  | returnKw => "Return"
  | voidKw => "Void"
  | whileKw => "While"

end Keyword

/-- The punctuation and operator marks. -/
inductive Mark where
  | comma | semicolon | period | twoPeriods | ellipsis | hash
  | leftParen | rightParen | leftBracket | rightBracket | leftBrace | rightBrace
  | plus | minus | times | slash | percent | plusPlus | minusMinus
  | assign | plusAssign | minusAssign | timesAssign | slashAssign | percentAssign
  | equal | notEqual | less | lessEqual | greater | greaterEqual | andAnd | orOr
deriving DecidableEq, Repr, Inhabited

namespace Mark

/-- The spelling of a mark. -/
def spelling : Mark → String
  | comma => ","
  | semicolon => ";"
  | period => "."
  | twoPeriods => ".."
  | ellipsis => "..."
  | hash => "#"
  | leftParen => "("
  | rightParen => ")"
  | leftBracket => "["
  | rightBracket => "]"
  | leftBrace => "\x7b"
  | rightBrace => "\x7d"
  | plus => "+"
  | minus => "-"
  | times => "*"
  | slash => "/"
  | percent => "%"
  | plusPlus => "++"
  | minusMinus => "--"
  | assign => "="
  | plusAssign => "+="
  | minusAssign => "-="
  | timesAssign => "*="
  | slashAssign => "/="
  | percentAssign => "%="
  | equal => "=="
  | notEqual => "!="
  | less => "<"
  | lessEqual => "<="
  | greater => ">"
  | greaterEqual => ">="
  | andAnd => "&&"
  | orOr => "||"

/-- The name of a mark in a token table. -/
def label : Mark → String
  | comma => "Comma"
  | semicolon => "Semicolon"
  | period => "Period"
  | twoPeriods => "PPeriod"
  | ellipsis => "PPPeriod"
  | hash => "Hash"
  | leftParen => "LeftParen"
  | rightParen => "RightParen"
  | leftBracket => "LeftBracket"
  | rightBracket => "RightBracket"
  | leftBrace => "LeftBrace"
  | rightBrace => "RightBrace"
  | plus => "Plus"
  | minus => "Minus"
  | times => "Times"
  | slash => "Slash"
  | percent => "Rem"
  | plusPlus => "PlusPlus"
  | minusMinus => "MinusMinus"
  | assign => "Assign"
  | plusAssign => "PlusAssign"
  | minusAssign => "MinusAssign"
  | timesAssign => "TimesAssign"
  | slashAssign => "SlashAssign"
  | percentAssign => "RemAssign"
  | equal => "Eq"
  | notEqual => "NotEq"
  | less => "Less"
  | lessEqual => "LessEq"
  | greater => "Greater"
  | greaterEqual => "GreaterEq"
  | andAnd => "And"
  | orOr => "Or"

end Mark

/-- What sort of token something is, without the name or value it carries. -/
inductive TokenKind where
  | mark (m : Mark)
  | keyword (k : Keyword)
  | ident
  | number
  | charConst
  /-- Characters that form no token. -/
  | unknown
  /-- The end of the source. -/
  | eof
deriving DecidableEq, Repr, Inhabited

namespace TokenKind

/-- The text by which messages refer to a kind of token. -/
def text : TokenKind → String
  | mark m => m.spelling
  | keyword k => k.spelling
  | ident => "identifier"
  | number => "number"
  | charConst => "character constant"
  | unknown => "none"
  | eof => "end of file"

/-- The name of a kind of token in a token table. -/
def label : TokenKind → String
  | mark m => m.label
  | keyword k => s!"Keyword({k.label})"
  | ident => "Ident"
  | number => "Number"
  | charConst => "CharConst"
  | unknown => "None"
  | eof => "EOF"

/-- Whether an expression can begin with such a token. -/
def startsExpression : TokenKind → Bool
  | mark .minus | mark .leftParen | keyword .newKw | ident | number | charConst => true
  | _ => false

end TokenKind

end MicroJava

import MicroJava.Problem
import MicroJava.Text.Alphanumeric
import MicroJava.Text.Blank

/-! # Reading the front of a text

The lexer looks at plain characters. `Trivia.extent` measures the blanks and comments at the front
of a text, and `Reading.ofText` reads the one lexeme that follows. Places in the source play no
part here.
-/

namespace MicroJava

/-- What a token says, without its place. -/
inductive Lexeme where
  | mark (m : Mark)
  | keyword (k : Keyword)
  | ident (name : String)
  | number (value : Int32)
  | charConst (value : Int32)
  /-- Characters that form no token. -/
  | unknown
  /-- The end of the source. -/
  | eof
deriving DecidableEq, Repr, Inhabited

namespace Lexeme

/-- The kind of token a lexeme belongs to. -/
def kind : Lexeme → TokenKind
  | mark m => .mark m
  | keyword k => .keyword k
  | ident _ => .ident
  | number _ => .number
  | charConst _ => .charConst
  | unknown => .unknown
  | eof => .eof

/-- The value of a number or character constant, and zero for anything else. -/
def value : Lexeme → Int32
  | number v | charConst v => v
  | _ => 0

/-- The word an identifier or reserved word consists of, empty for anything else. -/
def name : Lexeme → String
  | ident name => name
  | keyword k => k.spelling
  | _ => ""

end Lexeme

/-! ## Trivia -/

namespace Trivia

/-- How far the trivia at the front of a text reach. -/
structure Extent where
  /-- The characters before the first lexeme, or before the comment that is never closed. -/
  length : Nat
  /-- Whether a comment follows that is never closed. -/
  unclosed : Bool
deriving DecidableEq, Repr

/-- Measures trivia inside `depth` open comments. `seen` characters were passed so far, and the
outermost open comment began after `start` of them. -/
def measure (start seen : Nat) : (depth : Nat) → List Char → Extent
  | 0, '/' :: '*' :: rest => measure seen (seen + 2) 1 rest
  | 0, c :: rest => if Text.isBlank c then measure seen (seen + 1) 0 rest else ⟨seen, false⟩
  | 0, [] => ⟨seen, false⟩
  | depth + 1, '/' :: '*' :: rest => measure start (seen + 2) (depth + 2) rest
  | depth + 1, '*' :: '/' :: rest => measure start (seen + 2) depth rest
  | depth + 1, _ :: rest => measure start (seen + 1) (depth + 1) rest
  | _ + 1, [] => ⟨start, true⟩

/-- The extent of the blanks and comments at the front of a text. Comments nest. -/
def extent (text : List Char) : Extent := measure 0 0 0 text

end Trivia

/-! ## Lexemes -/

/-- What the reader makes of the front of a text that starts with a lexeme. -/
structure Reading where
  /-- The characters read. -/
  text : List Char
  lexeme : Lexeme
  problems : List LexicalProblem := []
  /-- The characters left. -/
  rest : List Char
deriving DecidableEq, Repr

namespace Reading

/-- Whether a character can begin an identifier. -/
def startsWord (c : Char) : Bool := c.isAlpha

/-- Whether a character can continue an identifier. -/
def continuesWord (c : Char) : Bool := Text.isAlphanumeric c || c == '_'

/-- An identifier or reserved word. -/
def word (text : List Char) : Reading :=
  let (letters, rest) := text.span continuesWord
  let name := String.ofList letters
  match Keyword.ofSpelling? name with
  | some keyword => { text := letters, lexeme := .keyword keyword, rest }
  | none => { text := letters, lexeme := .ident name, rest }

/-- The number that a run of decimal digits stands for. -/
def decimal (digits : List Char) : Nat :=
  digits.foldl (fun n c => 10 * n + (c.toNat - '0'.toNat)) 0

/-- The largest number that can be written. -/
def maxNumber : Nat := 0x7fffffff

/-- A decimal number. One that is too big reads as zero. -/
def number (text : List Char) : Reading :=
  let (digits, rest) := text.span Char.isDigit
  let n := decimal digits
  if n ≤ maxNumber then { text := digits, lexeme := .number (Int32.ofNat n), rest }
  else
    { text := digits, lexeme := .number 0, rest,
      problems := [.numberTooBig (String.ofList digits)] }

/-- The character a backslash and a letter stand for. -/
def escape? : Char → Option Char
  | 'r' => some '\r'
  | 'n' => some '\n'
  | '\'' => some '\''
  | '\\' => some '\\'
  | _ => none

/-- The code point of a character as a value. -/
def codePoint (c : Char) : Int32 := Int32.ofNat c.toNat

/-- A character constant with all but its closing quote read. -/
def closeQuote (text : List Char) (value : Int32) (problems : List LexicalProblem) :
    List Char → Reading
  | '\'' :: rest => { text := text ++ ['\''], lexeme := .charConst value, problems, rest }
  | rest =>
    { text, lexeme := .charConst value, problems := problems ++ [.missingQuote], rest }

/-- A character constant whose opening quote was read. -/
def charConst : List Char → Reading
  | [] => { text := ['\''], lexeme := .charConst 0, problems := [.unclosedCharConst], rest := [] }
  | ['\\'] =>
    { text := ['\'', '\\'], lexeme := .charConst 0, problems := [.unclosedCharConst], rest := [] }
  | '\\' :: c :: rest =>
    match escape? c with
    | some meant => closeQuote ['\'', '\\', c] (codePoint meant) [] rest
    | none => closeQuote ['\'', '\\', c] 0 [.undefinedEscape c] rest
  | '\'' :: rest =>
    { text := ['\'', '\''], lexeme := .charConst 0, problems := [.emptyCharConst], rest }
  | c :: rest =>
    if c = '\n' ∨ c = '\r' then
      { text := ['\''], lexeme := .charConst 0, problems := [.lineEndInCharConst],
        rest := c :: rest }
    else closeQuote ['\'', c] (codePoint c) [] rest

/-- The longest mark at the front of a text, with the number of its characters. -/
def mark? : List Char → Option (Mark × Nat)
  | ';' :: _ => some (.semicolon, 1)
  | ',' :: _ => some (.comma, 1)
  | '(' :: _ => some (.leftParen, 1)
  | ')' :: _ => some (.rightParen, 1)
  | '[' :: _ => some (.leftBracket, 1)
  | ']' :: _ => some (.rightBracket, 1)
  | '{' :: _ => some (.leftBrace, 1)
  | '}' :: _ => some (.rightBrace, 1)
  | '#' :: _ => some (.hash, 1)
  | '=' :: '=' :: _ => some (.equal, 2)
  | '=' :: _ => some (.assign, 1)
  | '*' :: '=' :: _ => some (.timesAssign, 2)
  | '*' :: _ => some (.times, 1)
  | '%' :: '=' :: _ => some (.percentAssign, 2)
  | '%' :: _ => some (.percent, 1)
  | '<' :: '=' :: _ => some (.lessEqual, 2)
  | '<' :: _ => some (.less, 1)
  | '>' :: '=' :: _ => some (.greaterEqual, 2)
  | '>' :: _ => some (.greater, 1)
  | '+' :: '+' :: _ => some (.plusPlus, 2)
  | '+' :: '=' :: _ => some (.plusAssign, 2)
  | '+' :: _ => some (.plus, 1)
  | '-' :: '-' :: _ => some (.minusMinus, 2)
  | '-' :: '=' :: _ => some (.minusAssign, 2)
  | '-' :: _ => some (.minus, 1)
  | '/' :: '=' :: _ => some (.slashAssign, 2)
  | '/' :: _ => some (.slash, 1)
  | '!' :: '=' :: _ => some (.notEqual, 2)
  | '&' :: '&' :: _ => some (.andAnd, 2)
  | '|' :: '|' :: _ => some (.orOr, 2)
  | '.' :: '.' :: '.' :: _ => some (.ellipsis, 3)
  | '.' :: '.' :: _ => some (.twoPeriods, 2)
  | '.' :: _ => some (.period, 1)
  | _ => none

/-- Reads a text that starts with the character `c`, which is neither blank nor the beginning of a
comment. -/
def ofText (c : Char) (rest : List Char) : Reading :=
  if startsWord c then word (c :: rest)
  else if c.isDigit then number (c :: rest)
  else if c = '\'' then charConst rest
  else
    match mark? (c :: rest) with
    | some (m, n) =>
      { text := (c :: rest).take n, lexeme := .mark m, rest := (c :: rest).drop n }
    | none => { text := [c], lexeme := .unknown, problems := [.invalidChar c], rest }

end Reading

end MicroJava

import MicroJava.Token.Lexeme

/-! # Tokens of a source text

A text is cut into pieces: trivia followed by one lexeme, and at last the trivia before the end.
Placing the pieces one after the other gives every token its position and every lexical problem its
diagnostic.
-/

namespace MicroJava

/-- A part of a text that the lexer handles in one step. -/
inductive Piece where
  /-- Blanks and comments, then a lexeme. -/
  | lexeme (trivia : List Char) (reading : Reading)
  /-- Blanks and comments, then the end of the text. A comment that is never closed takes up what
  is left of the text. -/
  | finish (trivia unclosed : List Char)
deriving DecidableEq, Repr

namespace Piece

/-- The piece at the front of a text. -/
def ofText (text : List Char) : Piece :=
  let extent := Trivia.extent text
  let (trivia, front) := text.splitAt extent.length
  if extent.unclosed then .finish trivia front
  else
    match front with
    | [] => .finish trivia []
    | c :: rest => .lexeme trivia (Reading.ofText c rest)

/-- Cuts a text into at most `fuel` lexemes and the end, adding the pieces to `done`. -/
def cut : (fuel : Nat) → List Char → (done : Array Piece) → Array Piece
  | 0, text, done => done.push (.finish [] text)
  | fuel + 1, text, done =>
    match ofText text with
    | .lexeme trivia reading => cut fuel reading.rest (done.push (.lexeme trivia reading))
    | .finish trivia unclosed => done.push (.finish trivia unclosed)

/-- The pieces of a text. Each lexeme has at least one character, so the length of the text bounds
their number. -/
def all (text : List Char) : List Piece := (cut (text.length + 1) text #[]).toList

end Piece

/-- A lexeme at a place of the source. -/
structure Token where
  lexeme : Lexeme
  pos : Position
deriving DecidableEq, Repr, Inhabited

namespace Token

/-- The kind of a token. -/
def kind (t : Token) : TokenKind := t.lexeme.kind

/-- The value of a number or character constant, and zero for any other token. -/
def value (t : Token) : Int32 := t.lexeme.value

/-- The word an identifier or reserved word consists of, empty for any other token. -/
def name (t : Token) : String := t.lexeme.name

/-- The token before anything was read. -/
def before : Token := ⟨.unknown, .start⟩

end Token

/-- A token with the lexical problems found when it was read. -/
structure Scanned where
  token : Token
  diagnostics : List Diagnostic := []
deriving DecidableEq, Repr

namespace Scanned

/-- The token a piece yields when it begins at `pos`, and the place after the piece. -/
def ofPiece (pos : Position) : Piece → Scanned × Position
  | .lexeme trivia reading =>
    let start := pos.after trivia
    (⟨⟨reading.lexeme, start⟩, reading.problems.map fun p => ⟨start, .lexical p⟩⟩,
      start.after reading.text)
  | .finish trivia [] =>
    let start := pos.after trivia
    (⟨⟨.eof, start⟩, []⟩, start)
  | .finish trivia unclosed =>
    let start := pos.after trivia
    let finish := start.after unclosed
    (⟨⟨.eof, finish⟩, [⟨start, .lexical .unclosedComment⟩]⟩, finish)

/-- Places pieces one after the other, adding the tokens to `done`. -/
def place (pos : Position) : List Piece → (done : Array Scanned) → Array Scanned
  | [], done => done
  | piece :: pieces, done =>
    let (scanned, next) := ofPiece pos piece
    place next pieces (done.push scanned)

/-- The tokens of a source text, the end of the source last. -/
def all (source : List Char) : List Scanned := (place .start (Piece.all source) #[]).toList

end Scanned

/-- The tokens of a source text, the end of the source last. -/
def Token.all (source : List Char) : List Token := (Scanned.all source).map (·.token)

/-- The lexical problems of a source text, in order. -/
def Diagnostic.lexical (source : List Char) : List Diagnostic :=
  (Scanned.all source).flatMap (·.diagnostics)

end MicroJava

import MicroJava.Proofs.Lexing.Piece

/-! # Lexing printed tokens

A token that can stand in a program is written with the text of its kind, its name, its digits or its
quoted character. Any list of such tokens, written with single spaces between them, is read back as
the same list without a problem: each lexeme stops where its space begins.
-/

namespace MicroJava

open Trivia List

/-- A token that can be written: a mark, a reserved word, a name that is an identifier, a number that
is not too big, or a character. -/
inductive Printable where
  | mark (m : Mark)
  | keyword (k : Keyword)
  | ident (name : String) (isName : isIdentifier name = true)
  | number (n : Nat) (small : n ≤ Reading.maxNumber)
  | charConst (c : Char)

namespace Printable

/-- The kind of token to write. -/
def kind : Printable → TokenKind
  | mark m => .mark m
  | keyword k => .keyword k
  | ident .. => .ident
  | number .. => .number
  | charConst _ => .charConst

/-- The number to write or the code point of the character, and zero for anything else. -/
def value : Printable → Int
  | number n _ => n
  | charConst c => c.toNat
  | _ => 0

/-- The name or reserved word to write, empty for anything else. -/
def name : Printable → String
  | keyword k => k.spelling
  | ident name _ => name
  | _ => ""

/-- A character as it is written between quotes. -/
def escaped : Char → List Char
  | '\r' => ['\\', 'r']
  | '\n' => ['\\', 'n']
  | '\'' => ['\\', '\'']
  | '\\' => ['\\', '\\']
  | c => [c]

/-- The characters with which a token is written. -/
def spelling : Printable → List Char
  | mark m => (TokenKind.mark m).text.toList
  | keyword k => (TokenKind.keyword k).text.toList
  | ident name _ => name.toList
  | number n _ => Nat.toDigits 10 n
  | charConst c => '\'' :: escaped c ++ ['\'']

/-- Tokens written one after the other with a space between each two. -/
def printed (tokens : List Printable) : List Char := [' '].intercalate (tokens.map spelling)

/-- The lexeme to be read. -/
def lexeme : Printable → Lexeme
  | mark m => .mark m
  | keyword k => .keyword k
  | ident name _ => .ident name
  | number n _ => .number (Int32.ofNat n)
  | charConst c => .charConst (Reading.codePoint c)

private theorem lexeme_kind (p : Printable) : p.lexeme.kind = p.kind := by
  cases p <;> rfl

private theorem lexeme_name (p : Printable) : p.lexeme.name = p.name := by
  cases p <;> rfl

/-- No number and no code point is too big for a value. -/
theorem lexeme_value (p : Printable) : p.lexeme.value.toInt = p.value := by
  cases p with
  | number n small => exact Int32.toInt_ofNat_of_lt (by unfold Reading.maxNumber at small; omega)
  | charConst c =>
    have valid : c.toNat < 0xd800 ∨ 0xdfff < c.toNat ∧ c.toNat < 0x110000 := c.valid
    exact Int32.toInt_ofNat_of_lt (by omega)
  | _ => rfl

end Printable

/-! ## Reading a spelling -/

/-- Whether nothing follows or a space. -/
inductive IsSeparated : List Char → Prop where
  | finish : IsSeparated []
  | space {rest} : IsSeparated (' ' :: rest)

/-- The lexeme that a word stands for. -/
def Lexeme.ofWord (name : String) : Lexeme :=
  match Keyword.ofSpelling? name with
  | some k => .keyword k
  | none => .ident name

/-- Whether a lexeme is read without a problem from the characters of a text, wherever it is
separated from what follows. -/
def Lexeme.IsReadFrom (lexeme : Lexeme) (text : List Char) : Prop :=
  ∀ rest, IsSeparated rest → ∃ c back, text ++ rest = c :: back ∧ Stops (c :: back) ∧
    Reading.ofText c back = { text, lexeme, rest }

theorem IsSeparated.span_append {rest : List Char} (separated : IsSeparated rest) {p : Char → Bool}
    (space : p ' ' = false) {front : List Char} (all : front.all p = true) :
    (front ++ rest).span p = (front, rest) := by
  rw [all_eq_true] at all
  rw [span_eq_takeWhile_dropWhile, takeWhile_append_of_pos all, dropWhile_append_of_pos all]
  cases separated <;> simp [space]

/-- A visible character of ASCII is not blank. -/
theorem Text.isBlank_eq_false {c : Char} (low : 0x20 < c.toNat) (high : c.toNat < 0x7f) :
    isBlank c = false := by
  simp only [isBlank, Bool.or_eq_false_iff, Bool.and_eq_false_iff, decide_eq_false_iff_not,
    beq_eq_false_iff_ne]
  omega

namespace Reading

variable {c : Char} {back rest : List Char}

theorem ascii_of_isDigit (digit : c.isDigit = true) : 0x2f < c.toNat ∧ c.toNat < 0x3a := by
  simp only [Char.isDigit, Bool.and_eq_true, decide_eq_true_eq, ge_iff_le,
    UInt32.le_iff_toNat_le, UInt32.reduceToNat, Char.reduceVal] at digit
  simp only [Char.toNat]
  omega

theorem stops_of_startsWord (starts : startsWord c = true) : Stops (c :: rest) := by
  have ascii := ascii_of_startsWord starts
  constructor
  · apply Text.isBlank_eq_false <;> omega
  · rintro ⟨rfl, _⟩
    cases starts

theorem stops_of_isDigit (digit : c.isDigit = true) : Stops (c :: rest) := by
  have ascii := ascii_of_isDigit digit
  constructor
  · apply Text.isBlank_eq_false <;> omega
  · rintro ⟨rfl, _⟩
    cases digit

/-- A word with a letter at its front is read as a whole. -/
theorem word_isReadFrom {name : String} (letters : name.toList = c :: back)
    (starts : startsWord c = true) (continues : back.all continuesWord = true) :
    (Lexeme.ofWord name).IsReadFrom name.toList := by
  intro rest separated
  have all : (c :: back).all continuesWord = true := by
    simp [continuesWord_of_startsWord starts, continues]
  have span := separated.span_append (by decide) all
  refine ⟨c, back ++ rest, by rw [letters, cons_append], stops_of_startsWord starts, ?_⟩
  rw [ofText, if_pos starts, word, ← cons_append, span, ← letters]
  simp only [String.ofList_toList, Lexeme.ofWord]
  cases Keyword.ofSpelling? name <;> rfl

private theorem keyword_isReadFrom (k : Keyword) :
    (Lexeme.keyword k).IsReadFrom k.spelling.toList := by
  have meaning : Lexeme.ofWord k.spelling = .keyword k := by cases k <;> decide
  rw [← meaning]
  cases k <;> exact word_isReadFrom rfl (by decide) (by decide)

private theorem ident_isReadFrom {name : String} (isName : isIdentifier name = true) :
    (Lexeme.ident name).IsReadFrom name.toList := by
  unfold isIdentifier at isName
  split at isName
  · cases isName
  · next c back letters =>
    simp only [Bool.and_eq_true, Option.isNone_iff_eq_none] at isName
    obtain ⟨⟨starts, continues⟩, free⟩ := isName
    have meaning : Lexeme.ofWord name = .ident name := by rw [Lexeme.ofWord, free]
    rw [← meaning]
    exact word_isReadFrom letters starts continues

private theorem number_isReadFrom {n : Nat} (small : n ≤ maxNumber) :
    (Lexeme.number (Int32.ofNat n)).IsReadFrom (Nat.toDigits 10 n) := by
  intro rest separated
  cases digits : Nat.toDigits 10 n with
  | nil => exact absurd digits Nat.toDigits_ne_nil
  | cons c back =>
    have all : (c :: back).all Char.isDigit = true := by
      rw [all_eq_true, ← digits]
      intro c member
      exact Nat.isDigit_of_mem_toDigits (by decide) (by decide) member
    have span := separated.span_append (by decide) all
    rw [all_cons, Bool.and_eq_true] at all
    have noWord : ¬ startsWord c = true := by
      intro starts
      have letter := ascii_of_startsWord starts
      have digit := ascii_of_isDigit all.1
      omega
    have value : decimal (c :: back) = n := by
      rw [← digits]
      exact Nat.ofDigitChars_ten_toDigits
    refine ⟨c, back ++ rest, rfl, stops_of_isDigit all.1, ?_⟩
    rw [ofText, if_neg noWord, if_pos all.1, number, ← cons_append, span]
    simp only [value, if_pos small]

/-- A quoted character is read up to its closing quote, whatever follows. -/
theorem charConst_escaped (c : Char) (rest : List Char) :
    charConst (Printable.escaped c ++ '\'' :: rest) =
      { text := '\'' :: Printable.escaped c ++ ['\''], lexeme := .charConst (codePoint c), rest } := by
  unfold Printable.escaped
  split
  · rfl
  · rfl
  · rfl
  · rfl
  · next noReturn noNewline noQuote noBackslash =>
    change charConst (c :: '\'' :: rest) = _
    unfold charConst
    split
    · contradiction
    · next same => exact absurd (cons.inj same).1 noBackslash
    · next same => exact absurd (cons.inj same).1 noBackslash
    · next same => exact absurd (cons.inj same).1 noQuote
    · next same =>
      obtain ⟨rfl, rfl⟩ := cons.inj same
      rw [if_neg (not_or.mpr ⟨noNewline, noReturn⟩)]
      rfl

private theorem charConst_isReadFrom (c : Char) :
    (Lexeme.charConst (codePoint c)).IsReadFrom ('\'' :: Printable.escaped c ++ ['\'']) := by
  intro rest separated
  refine ⟨'\'', Printable.escaped c ++ '\'' :: rest, by simp, ⟨by decide, by simp⟩, ?_⟩
  exact charConst_escaped c rest

private theorem mark_isReadFrom (m : Mark) : (Lexeme.mark m).IsReadFrom m.spelling.toList := by
  have read : ∃ c back, m.spelling.toList = c :: back ∧ Text.isBlank c = false ∧
      back.head? ≠ some '*' ∧ ∀ rest, IsSeparated rest →
        ofText c (back ++ rest) = { text := c :: back, lexeme := .mark m, rest } := by
    cases m <;>
      exact ⟨_, _, rfl, by decide, by decide, fun rest separated => by cases separated <;> rfl⟩
  obtain ⟨c, back, spelling, visible, noStar, read⟩ := read
  intro rest separated
  rw [spelling]
  refine ⟨c, back ++ rest, rfl, ⟨visible, ?_⟩, read rest separated⟩
  rintro ⟨_, star⟩
  cases back with
  | nil => cases separated <;> cases star
  | cons next back => exact noStar star

end Reading

theorem Printable.isReadFrom (p : Printable) : p.lexeme.IsReadFrom p.spelling := by
  cases p with
  | mark m => exact Reading.mark_isReadFrom m
  | keyword k => exact Reading.keyword_isReadFrom k
  | ident name isName => exact Reading.ident_isReadFrom isName
  | number n small => exact Reading.number_isReadFrom small
  | charConst c => exact Reading.charConst_isReadFrom c

/-! ## Reading what was printed -/

/-- Whether a piece was read without a problem. -/
def Piece.IsClean : Piece → Prop
  | .lexeme _ reading => reading.problems = []
  | .finish _ unclosed => unclosed = []

theorem Scanned.placed_diagnostics (pos : Position) (pieces : List Piece)
    (clean : ∀ piece ∈ pieces, piece.IsClean) :
    (placed pos pieces).flatMap (·.diagnostics) = [] := by
  induction pieces generalizing pos with
  | nil => rfl
  | cons piece pieces ih =>
    obtain ⟨first, later⟩ := forall_mem_cons.mp clean
    have none : (ofPiece pos piece).1.diagnostics = [] := by
      cases piece with
      | lexeme trivia reading => simp only [Piece.IsClean] at first; simp [ofPiece, first]
      | finish trivia unclosed =>
        obtain rfl : unclosed = [] := first
        rfl
    rw [placed, flatMap_cons, none, ih _ later, nil_append]

namespace Printable

/-- Tokens written with a space before each of them. -/
def spaced (tokens : List Printable) : List Char := tokens.flatMap fun p => ' ' :: p.spelling

private theorem printed_cons (p : Printable) (tokens : List Printable) :
    printed (p :: tokens) = p.spelling ++ spaced tokens := by
  induction tokens generalizing p with
  | nil => simp [printed, spaced, intercalate]
  | cons next tokens ih =>
    have more := ih next
    simp only [printed, map_cons, intercalate_cons_cons, spaced, flatMap_cons] at *
    rw [more]
    simp

private theorem spaced_isSeparated (tokens : List Printable) : IsSeparated (spaced tokens) := by
  cases tokens with
  | nil => exact .finish
  | cons p tokens => exact .space

/-- Whether pieces say what tokens say, with no problem. -/
structure Tells (pieces : List Piece) (tokens : List Printable) : Prop where
  lexemes : pieces.map Piece.content = tokens.map lexeme ++ [.eof]
  clean : ∀ piece ∈ pieces, piece.IsClean

private theorem cuts_cons {trivia : List Char} (isTrivia : IsTrivia trivia) (p : Printable)
    {tokens : List Printable} {pieces : List Piece} (more : Piece.Cuts (spaced tokens) pieces)
    (tells : Tells pieces tokens) :
    ∃ pieces, Piece.Cuts (trivia ++ (p.spelling ++ spaced tokens)) pieces ∧
      Tells pieces (p :: tokens) := by
  obtain ⟨c, back, text, stops, read⟩ := p.isReadFrom _ (spaced_isSeparated tokens)
  have cuts := Piece.Cuts.lexeme isTrivia stops (by rw [read]; exact more)
  rw [text]
  refine ⟨_, cuts, ?_, ?_⟩
  · simp [Piece.content, read, tells.lexemes]
  · exact forall_mem_cons.mpr ⟨by rw [read]; rfl, tells.clean⟩

private theorem cuts_spaced (tokens : List Printable) :
    ∃ pieces, Piece.Cuts (spaced tokens) pieces ∧ Tells pieces tokens := by
  induction tokens with
  | nil => exact ⟨_, .finish .nil, rfl, by simp [Piece.IsClean]⟩
  | cons p tokens ih =>
    obtain ⟨pieces, cuts, tells⟩ := ih
    have space : IsTrivia [' '] := .blank (by decide) .nil
    exact cuts_cons space p cuts tells

private theorem cuts_printed (tokens : List Printable) :
    ∃ pieces, Piece.Cuts (printed tokens) pieces ∧ Tells pieces tokens := by
  cases tokens with
  | nil => exact cuts_spaced []
  | cons p tokens =>
    obtain ⟨pieces, cuts, tells⟩ := cuts_spaced tokens
    rw [printed_cons]
    exact cuts_cons .nil p cuts tells

/-- Lexing undoes printing. Tokens written with single spaces between them are read back without a
problem, with the same kinds, values and names in the same order, and then the end of the source. -/
theorem lex_printed (tokens : List Printable) :
    (Token.all (printed tokens)).map (fun t => (t.kind, t.value.toInt, t.name)) =
      tokens.map (fun p => (p.kind, p.value, p.name)) ++ [(.eof, 0, "")] ∧
    Diagnostic.lexical (printed tokens) = [] := by
  obtain ⟨pieces, cuts, tells⟩ := cuts_printed tokens
  have all : Scanned.all (printed tokens) = Scanned.placed .start pieces := by
    rw [Scanned.all_eq, cuts.all_eq]
  constructor
  · have lexemes : (Token.all (printed tokens)).map (·.lexeme) = tokens.map lexeme ++ [.eof] := by
      rw [← tells.lexemes, ← Scanned.placed_lexemes .start, ← all, Token.all, List.map_map]
      rfl
    have told := congrArg (List.map fun l => (l.kind, l.value.toInt, l.name)) lexemes
    simp only [List.map_map, List.map_append, Function.comp_def, lexeme_kind, lexeme_value,
      lexeme_name] at told
    exact told
  · rw [Diagnostic.lexical, all]
    exact Scanned.placed_diagnostics _ _ tells.clean

end Printable

end MicroJava

import Mathlib.Data.List.TakeDrop
import MicroJava.Proofs.Lexing.Trivia
import MicroJava.Token.Basic

/-! # Cutting a text into pieces

`Piece.Cuts` says how a text is cut, with no bound on the number of pieces: trivia, the lexeme that
is read behind them, and the pieces of what is left. `Piece.all` cuts every text so, because a lexeme
has at least one character. `Lexeme.IsText` says from which characters a lexeme is read.
-/

namespace MicroJava

open Trivia List

/-- Whether a word can be an identifier. -/
def isIdentifier (name : String) : Bool :=
  match name.toList with
  | [] => false
  | c :: rest =>
    Reading.startsWord c && rest.all Reading.continuesWord && (Keyword.ofSpelling? name).isNone

/-- Whether a lexeme is written with the characters of a text. The end of a source is written with
none. -/
def Lexeme.IsText : Lexeme → List Char → Prop
  | .mark m, text => text = m.spelling.toList
  | .keyword k, text => text = k.spelling.toList
  | .ident name, text => text = name.toList ∧ isIdentifier name = true
  | .number value, text => text.all Char.isDigit = true ∧
      value = if Reading.decimal text ≤ Reading.maxNumber then Int32.ofNat (Reading.decimal text)
        else 0
  | .charConst _, text => text.head? = some '\''
  | .unknown, text => text.length = 1
  | .eof, _ => False

/-! ## Lexemes -/

namespace Reading

variable {c : Char} {text rest : List Char} {value : Int32} {problems : List LexicalProblem}

theorem ascii_of_startsWord (starts : startsWord c = true) : 0x40 < c.toNat ∧ c.toNat < 0x7b := by
  have starts : c.isAlpha = true := starts
  change (decide (c.val ≥ 'A'.val ∧ c.val ≤ 'Z'.val) ||
    (decide (c.val ≥ 'a'.val) && decide (c.val ≤ 'z'.val))) = true at starts
  simp only [Bool.or_eq_true, Bool.and_eq_true, decide_eq_true_eq] at starts
  simp only [Char.toNat, ge_iff_le, UInt32.le_iff_toNat_le, UInt32.reduceToNat, Char.reduceVal] at *
  omega

theorem continuesWord_of_startsWord (starts : startsWord c = true) : continuesWord c = true := by
  have ascii := ascii_of_startsWord starts
  have small : c.toNat < 0x80 := by omega
  have alpha : c.isAlpha = true := starts
  simp [continuesWord, Text.isAlphanumeric, small, Char.isAlphanum, alpha]

/-- Whether a reading takes a lexeme from the front of a text. -/
structure Splits (reading : Reading) (text : List Char) : Prop where
  append : reading.text ++ reading.rest = text
  nonempty : reading.text ≠ []
  isText : reading.lexeme.IsText reading.text

private theorem word_splits (starts : startsWord c = true) :
    (word (c :: rest)).Splits (c :: rest) := by
  have letters : (c :: rest).takeWhile continuesWord = c :: rest.takeWhile continuesWord := by
    simp [continuesWord_of_startsWord starts]
  unfold word
  simp only [span_eq_takeWhile_dropWhile]
  split
  · next keyword found =>
    have spelling := find?_some found
    rw [beq_iff_eq] at spelling
    exact ⟨takeWhile_append_dropWhile, by simp [letters], by simp [Lexeme.IsText, spelling]⟩
  · next free =>
    refine ⟨takeWhile_append_dropWhile, by simp [letters], String.toList_ofList.symm, ?_⟩
    simp only [letters] at free ⊢
    simp only [isIdentifier, String.toList_ofList, starts, all_takeWhile, free,
      Option.isNone_none, Bool.and_self]

private theorem number_splits (starts : c.isDigit = true) :
    (number (c :: rest)).Splits (c :: rest) := by
  have digits : (c :: rest).takeWhile Char.isDigit ≠ [] := by simp [starts]
  unfold number
  simp only [span_eq_takeWhile_dropWhile]
  split
  · next small =>
    exact ⟨takeWhile_append_dropWhile, digits, all_takeWhile, (if_pos small).symm⟩
  · next big =>
    exact ⟨takeWhile_append_dropWhile, digits, all_takeWhile, (if_neg big).symm⟩

private theorem closeQuote_splits (opened : text.head? = some '\'') :
    (closeQuote text value problems rest).Splits (text ++ rest) := by
  have nonempty : text ≠ [] := by
    rintro rfl
    cases opened
  unfold closeQuote
  split
  · exact ⟨by simp, by simp, by simp [Lexeme.IsText, head?_append, opened]⟩
  · exact ⟨rfl, nonempty, opened⟩

private theorem charConst_splits : (charConst rest).Splits ('\'' :: rest) := by
  unfold charConst
  split
  · exact ⟨rfl, by simp, rfl⟩
  · exact ⟨rfl, by simp, rfl⟩
  · split <;> exact closeQuote_splits rfl
  · exact ⟨rfl, by simp, rfl⟩
  · split
    · exact ⟨rfl, by simp, rfl⟩
    · exact closeQuote_splits rfl

/-- A mark is found by its spelling. -/
theorem mark?_spelling {m : Mark} {n : Nat} (found : mark? text = some (m, n)) :
    text.take n = m.spelling.toList := by
  unfold mark? at found
  split at found <;> cases found <;> rfl

theorem ofText_splits (c : Char) (rest : List Char) : (ofText c rest).Splits (c :: rest) := by
  unfold ofText
  split
  · next starts => exact word_splits starts
  · split
    · next starts => exact number_splits starts
    · split
      · next quote =>
        subst quote
        exact charConst_splits
      · split
        · next m n found =>
          have spelling := mark?_spelling found
          refine ⟨take_append_drop .., ?_, spelling⟩
          simp only [spelling]
          cases m <;> decide
        · exact ⟨rfl, by simp, rfl⟩

end Reading

/-! ## Pieces -/

namespace Piece

/-- Whether a text is cut into pieces. -/
inductive Cuts : List Char → List Piece → Prop where
  | lexeme {trivia c rest pieces} (isTrivia : IsTrivia trivia) (stops : Stops (c :: rest))
      (more : Cuts (Reading.ofText c rest).rest pieces) :
      Cuts (trivia ++ c :: rest) (.lexeme trivia (Reading.ofText c rest) :: pieces)
  | finish {trivia} (isTrivia : IsTrivia trivia) : Cuts trivia [.finish trivia []]
  | unclosed {trivia rest} (isTrivia : IsTrivia trivia) (unclosed : IsUnclosed rest) :
      Cuts (trivia ++ rest) [.finish trivia rest]

variable {c : Char} {text rest trivia : List Char} {pieces : List Piece}

private theorem ofText_lexeme (isTrivia : IsTrivia trivia) (stops : Stops (c :: rest)) :
    ofText (trivia ++ c :: rest) = .lexeme trivia (Reading.ofText c rest) := by
  simp [ofText, isTrivia.extent_stops stops]

private theorem ofText_finish (isTrivia : IsTrivia trivia) : ofText trivia = .finish trivia [] := by
  have stops : Stops [] := trivial
  have extent := isTrivia.extent_stops stops
  rw [append_nil] at extent
  simp [ofText, extent]

private theorem ofText_unclosed (isTrivia : IsTrivia trivia) (unclosed : IsUnclosed rest) :
    ofText (trivia ++ rest) = .finish trivia rest := by
  simp [ofText, isTrivia.extent_unclosed unclosed]

/-- A lexeme is followed by less than the whole text. -/
theorem rest_length_lt (trivia : List Char) (c : Char) (rest : List Char) :
    (Reading.ofText c rest).rest.length < (trivia ++ c :: rest).length := by
  obtain ⟨append, nonempty, _⟩ := Reading.ofText_splits c rest
  have positive := length_pos_iff.mpr nonempty
  have lengths := congrArg length append
  simp only [length_append] at lengths ⊢
  omega

/-- Every text is cut into pieces. -/
theorem exists_cuts (text : List Char) : ∃ pieces, Cuts text pieces := by
  induction length : text.length using Nat.strongRecOn generalizing text with
  | ind length ih =>
    subst length
    obtain ⟨trivia, rest, rfl, isTrivia, stops | unclosed⟩ := exists_trivia text
    · cases rest with
      | nil =>
        rw [append_nil]
        exact ⟨_, .finish isTrivia⟩
      | cons c rest =>
        obtain ⟨pieces, more⟩ := ih _ (rest_length_lt trivia c rest) _ rfl
        exact ⟨_, .lexeme isTrivia stops more⟩
    · exact ⟨_, .unclosed isTrivia unclosed⟩

/-- A text is cut into its pieces if there is fuel for each of its characters. -/
theorem Cuts.cut (cuts : Cuts text pieces) {fuel : Nat} (enough : text.length ≤ fuel)
    (done : Array Piece) : (cut (fuel + 1) text done).toList = done.toList ++ pieces := by
  induction cuts generalizing fuel done with
  | @lexeme trivia c rest _ isTrivia stops _ ih =>
    have shorter := rest_length_lt trivia c rest
    cases fuel with
    | zero => omega
    | succ fuel =>
      have enough : (Reading.ofText c rest).rest.length ≤ fuel := by omega
      rw [Piece.cut, ofText_lexeme isTrivia stops]
      simp [ih enough]
  | finish isTrivia => simp [Piece.cut, ofText_finish isTrivia]
  | unclosed isTrivia unclosed => simp [Piece.cut, ofText_unclosed isTrivia unclosed]

theorem Cuts.all_eq (cuts : Cuts text pieces) : all text = pieces := by
  simp [all, cuts.cut (Nat.le_refl _)]

theorem cuts_all (text : List Char) : Cuts text (all text) := by
  obtain ⟨pieces, cuts⟩ := exists_cuts text
  exact cuts.all_eq.symm ▸ cuts

/-- The lexeme of a piece. -/
def content : Piece → Lexeme
  | .lexeme _ reading => reading.lexeme
  | .finish .. => .eof

/-- The last piece is the end of the source, and the others are lexemes with a text of their own. -/
theorem Cuts.contents (cuts : Cuts text pieces) : ∃ front, pieces.map content = front ++ [.eof] ∧
    ∀ lexeme ∈ front, ∃ own, lexeme.IsText own := by
  induction cuts with
  | @lexeme trivia c rest _ _ _ _ ih =>
    obtain ⟨front, same, texts⟩ := ih
    refine ⟨(Reading.ofText c rest).lexeme :: front, by simp [content, same], ?_⟩
    intro lexeme member
    rcases mem_cons.mp member with rfl | member
    · exact ⟨_, (Reading.ofText_splits c rest).isText⟩
    · exact texts lexeme member
  | finish _ => exact ⟨[], rfl, by simp⟩
  | unclosed _ _ => exact ⟨[], rfl, by simp⟩

end Piece

/-! ## Tokens -/

namespace Scanned

/-- What a list of pieces becomes that begins at a place. -/
def placed : Position → List Piece → List Scanned
  | _, [] => []
  | pos, piece :: pieces => (ofPiece pos piece).1 :: placed (ofPiece pos piece).2 pieces

private theorem place_eq (pos : Position) (pieces : List Piece) (done : Array Scanned) :
    (place pos pieces done).toList = done.toList ++ placed pos pieces := by
  induction pieces generalizing pos done with
  | nil => simp [place, placed]
  | cons piece pieces ih => simp [place, placed, ih]

theorem all_eq (source : List Char) : all source = placed .start (Piece.all source) := by
  simp [all, place_eq]

theorem ofPiece_lexeme (pos : Position) (piece : Piece) :
    (ofPiece pos piece).1.token.lexeme = piece.content := by
  unfold ofPiece
  split <;> rfl

theorem placed_lexemes (pos : Position) (pieces : List Piece) :
    (placed pos pieces).map (·.token.lexeme) = pieces.map Piece.content := by
  induction pieces generalizing pos with
  | nil => rfl
  | cons piece pieces ih => simp [placed, ih, ofPiece_lexeme]

/-- The end of the source is the last lexeme of a text and no other. -/
theorem all_lexemes (source : List Char) :
    ∃ front, (all source).map (·.token.lexeme) = front ++ [.eof] ∧ .eof ∉ front ∧
      .ident "" ∉ front := by
  obtain ⟨front, same, texts⟩ := (Piece.cuts_all source).contents
  refine ⟨front, ?_, ?_, ?_⟩
  · rw [all_eq, placed_lexemes, same]
  · intro member
    obtain ⟨_, none⟩ := texts _ member
    exact none
  · intro member
    obtain ⟨_, _, named⟩ := texts _ member
    cases named

end Scanned

/-- Every name in a source text is an identifier. -/
theorem Token.all_identifier {source : List Char} {token : Token}
    (member : token ∈ Token.all source) {name : String} (named : token.lexeme = .ident name) :
    isIdentifier name = true := by
  obtain ⟨front, same, texts⟩ := (Piece.cuts_all source).contents
  have lexemes : (Token.all source).map (·.lexeme) = front ++ [.eof] := by
    rw [← same, ← Scanned.placed_lexemes .start, ← Scanned.all_eq, Token.all, map_map]
    rfl
  have inside : Lexeme.ident name ∈ front ++ [.eof] := by
    rw [← lexemes, ← named]
    exact mem_map_of_mem member
  rcases mem_append.mp inside with inside | last
  · obtain ⟨_, _, isName⟩ := texts _ inside
    exact isName
  · simp at last

end MicroJava

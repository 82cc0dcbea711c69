import Mathlib.Data.List.Induction
import Mathlib.Logic.Function.Iterate
import MicroJava.Proofs.Lexing.Piece
import MicroJava.Token.Stream

/-! # Tokens partition their source

Every character of a source text belongs to exactly one token or to the trivia between two of them.
The place of a token counts the lines and characters before it. A cursor that moves over the source
stands in that place when it comes to the token, and a stream that has reached the end of the source
stays there.
-/

namespace MicroJava

open Trivia List

/-! ## Places -/

/-- The place behind a text, counted in the text itself: a line for each line end, and a column for
each character behind the last of them. -/
def Position.behind (text : List Char) : Position :=
  ⟨1 + text.count '\n', 1 + (text.reverse.takeWhile (· ≠ '\n')).length⟩

theorem Position.start_after (text : List Char) : start.after text = behind text := by
  induction text using reverseRecOn with
  | nil => rfl
  | append_singleton text c ih =>
    rw [after_append, ih, after_cons, after_nil, next]
    split
    · next newline => simp [behind, newline, Nat.add_assoc]
    · next plain => simp [behind, plain, Nat.add_assoc]

/-! ## Stretches of a source -/

/-- A token with the characters it is written with and the trivia before them. -/
structure Token.Stretch where
  trivia : List Char
  text : List Char
  token : Token
  isTrivia : IsTrivia trivia
  nonempty : text ≠ []
  isText : token.lexeme.IsText text

/-- The characters that a stretch takes up. -/
def Token.Stretch.whole (stretch : Token.Stretch) : List Char := stretch.trivia ++ stretch.text

/-- What is skipped behind the last lexeme: trivia, and perhaps a comment that is never closed. -/
inductive Trivia.IsEnding : List Char → Prop where
  | trivia {trivia} (isTrivia : IsTrivia trivia) : IsEnding trivia
  | unclosed {trivia comment} (isTrivia : IsTrivia trivia) (unclosed : IsUnclosed comment) :
      IsEnding (trivia ++ comment)

/-- Whether stretches and an ending make up a text that stands behind another one, with the tokens in
their places. -/
structure Token.Partitions (before text : List Char) (tokens : List Token)
    (stretches : List Stretch) (ending : List Char) : Prop where
  concat : text = stretches.flatMap Stretch.whole ++ ending
  isEnding : IsEnding ending
  listed : tokens = stretches.map (·.token) ++ [⟨.eof, Position.start.after (before ++ text)⟩]
  place : ∀ front stretch back, stretches = front ++ stretch :: back →
    stretch.token.pos =
      Position.start.after (before ++ front.flatMap Stretch.whole ++ stretch.trivia)

namespace Token.Partitions

variable {before text ending : List Char} {tokens : List Token} {stretches : List Stretch}

/-- One more stretch before a partition. -/
theorem cons (stretch : Stretch)
    (pos : stretch.token.pos = Position.start.after (before ++ stretch.trivia))
    (more : Partitions (before ++ stretch.whole) text tokens stretches ending) :
    Partitions before (stretch.whole ++ text) (stretch.token :: tokens) (stretch :: stretches)
      ending where
  concat := by simp [more.concat]
  isEnding := more.isEnding
  listed := by simp [more.listed]
  place := by
    intro front other back same
    cases front with
    | nil =>
      obtain ⟨rfl, _⟩ := cons.inj same
      simpa using pos
    | cons first front =>
      obtain ⟨rfl, later⟩ := cons.inj same
      rw [more.place front other back later, flatMap_cons]
      simp only [append_assoc]

/-- No partition has more tokens than its text has characters, apart from the end of the source. -/
theorem length_le (partitions : Partitions before text tokens stretches ending) :
    tokens.length ≤ text.length + 1 := by
  have short (stretches : List Stretch) :
      stretches.length ≤ (stretches.flatMap Stretch.whole).length := by
    induction stretches with
    | nil => exact Nat.le_refl 0
    | cons stretch stretches ih =>
      have positive := length_pos_iff.mpr stretch.nonempty
      simp only [flatMap_cons, length_append, length_cons, Stretch.whole] at ih ⊢
      omega
  have shorter := short stretches
  rw [partitions.listed, partitions.concat]
  simp only [length_append, length_map, length_singleton]
  omega

end Token.Partitions

/-- The pieces of a text, placed behind another one, partition the text. -/
theorem Piece.Cuts.partitions {text : List Char} {pieces : List Piece} (cuts : Cuts text pieces)
    (before : List Char) : ∃ stretches ending, Token.Partitions before text
      ((Scanned.placed (.after .start before) pieces).map (·.token)) stretches ending := by
  induction cuts generalizing before with
  | @lexeme trivia c rest pieces isTrivia _ _ ih =>
    obtain ⟨append, nonempty, isText⟩ := Reading.ofText_splits c rest
    let token : Token :=
      ⟨(Reading.ofText c rest).lexeme, Position.start.after (before ++ trivia)⟩
    let stretch : Token.Stretch :=
      ⟨trivia, (Reading.ofText c rest).text, token, isTrivia, nonempty, isText⟩
    obtain ⟨stretches, ending, partitions⟩ := ih (before ++ stretch.whole)
    refine ⟨stretch :: stretches, ending, ?_⟩
    have whole := partitions.cons stretch rfl
    rw [Token.Stretch.whole, append_assoc, append] at whole
    simpa [Scanned.placed, Scanned.ofPiece, Position.after_append, Token.Stretch.whole, token,
      stretch] using whole
  | @finish trivia isTrivia =>
    refine ⟨[], trivia, rfl, .trivia isTrivia, ?_, by simp⟩
    simp [Scanned.placed, Scanned.ofPiece, Position.after_append]
  | @unclosed trivia rest isTrivia unclosed =>
    refine ⟨[], trivia ++ rest, rfl, .unclosed isTrivia unclosed, ?_, by simp⟩
    obtain ⟨never⟩ := unclosed
    simp [Scanned.placed, Scanned.ofPiece, Position.after_append]

/-! ## Cursors -/

namespace Cursor

variable {cursor : Cursor} {c : Char} {front rest : List Char}

/-- Whether a cursor has moved over a text, with another one still before it. -/
structure HasRead (cursor : Cursor) (front rest : List Char) : Prop where
  rest : cursor.rest = rest
  inside : cursor.atEnd = false
  place : ⟨cursor.line, cursor.col + 1⟩ = Position.start.after front

private theorem bump_cons (ahead : cursor.rest = c :: rest) :
    cursor.bump = { cursor with
      current := some c, rest
      line := if c = '\n' then cursor.line + 1 else cursor.line
      col := if c = '\n' then 0 else cursor.col + 1 } := by
  unfold bump
  rw [ahead]
  split <;> simp_all

theorem HasRead.bump (read : cursor.HasRead front (c :: rest)) :
    cursor.bump.HasRead (front ++ [c]) rest := by
  rw [bump_cons read.rest]
  refine ⟨rfl, read.inside, ?_⟩
  rw [Position.after_append, ← read.place, Position.after_cons, Position.after_nil, Position.next]
  split <;> rfl

/-- Each move takes a cursor over one character. -/
theorem hasRead_iterate (front rest : List Char) :
    (bump^[front.length] (ofText (front ++ rest))).HasRead front rest := by
  induction front using reverseRecOn generalizing rest with
  | nil => exact ⟨rfl, rfl, rfl⟩
  | append_singleton front c ih =>
    rw [length_append, length_singleton, Function.iterate_succ_apply', append_assoc,
      singleton_append]
    exact (ih (c :: rest)).bump

/-- The token that is read from the character under a cursor on. -/
def token (cursor : Cursor) : Token :=
  ⟨cursor.current.elim .eof fun c => (Reading.ofText c cursor.rest).lexeme,
    ⟨cursor.line, cursor.col⟩⟩

/-- The token that is read after some moves over a text. -/
def tokenAfter (text : List Char) (moves : Nat) : Token := (bump^[moves] (ofText text)).token

private theorem tokenAfter_append (front rest : List Char) (plain : c ≠ '\n') :
    tokenAfter (front ++ c :: rest) (front.length + 1) =
      ⟨(Reading.ofText c rest).lexeme, Position.start.after front⟩ := by
  have read := hasRead_iterate front (c :: rest)
  rw [tokenAfter, Function.iterate_succ_apply', bump_cons read.rest, ← read.place]
  simp [token, plain]

private theorem tokenAfter_length (text : List Char) :
    tokenAfter text (text.length + 1) = ⟨.eof, Position.start.after text⟩ := by
  have read := hasRead_iterate text []
  rw [append_nil] at read
  rw [tokenAfter, Function.iterate_succ_apply', ← read.place]
  simp [bump, token, read.rest, read.inside]

end Cursor

/-- The tokens of a text that stands behind another one are read after more and more moves. -/
theorem Piece.Cuts.moves {text : List Char} {pieces : List Piece} (cuts : Cuts text pieces)
    (before : List Char) : ∃ moves : List Nat, (before.length :: moves).Pairwise (· < ·) ∧
      (Scanned.placed (.after .start before) pieces).map (·.token) =
        moves.map (Cursor.tokenAfter (before ++ text)) := by
  have last (before text : List Char) :
      [before.length, (before ++ text).length + 1].Pairwise (· < ·) := by
    simp only [pairwise_cons, length_append, mem_singleton, forall_eq]
    exact ⟨by omega, by simp⟩
  induction cuts generalizing before with
  | @lexeme trivia c rest pieces _ stops _ ih =>
    obtain ⟨append, nonempty, _⟩ := Reading.ofText_splits c rest
    obtain ⟨moves, sorted, tokens⟩ := ih (before ++ trivia ++ (Reading.ofText c rest).text)
    have plain : c ≠ '\n' := by
      rintro rfl
      exact absurd stops.1 (by decide)
    have token := Cursor.tokenAfter_append (before ++ trivia) rest plain
    refine ⟨((before ++ trivia).length + 1) :: moves, ?_, ?_⟩
    · have positive := length_pos_iff.mpr nonempty
      simp only [pairwise_cons, forall_mem_cons, length_append] at sorted ⊢
      refine ⟨⟨by omega, fun n member => ?_⟩, fun n member => ?_, sorted.2⟩
      all_goals
        have := sorted.1 n member
        omega
    · simp only [append_assoc, append, Position.after_append] at tokens token
      simp only [Scanned.placed, Scanned.ofPiece, map_cons, tokens, token]
  | @finish trivia =>
    refine ⟨[(before ++ trivia).length + 1], last before trivia, ?_⟩
    simp only [map_singleton, Cursor.tokenAfter_length, Position.after_append]
    rfl
  | @unclosed trivia rest _ unclosed =>
    refine ⟨[(before ++ (trivia ++ rest)).length + 1], last before _, ?_⟩
    obtain ⟨never⟩ := unclosed
    simp only [map_singleton, Cursor.tokenAfter_length, Position.after_append]
    rfl

/-- Lexing reads its tokens where a cursor comes by on its way over the source. -/
theorem Token.all_eq_moves (source : List Char) : ∃ moves : List Nat, moves.Pairwise (· < ·) ∧
    Token.all source = moves.map (Cursor.tokenAfter source) := by
  obtain ⟨moves, sorted, tokens⟩ := (Piece.cuts_all source).moves []
  refine ⟨moves, (pairwise_cons.mp sorted).2, ?_⟩
  rw [Token.all, Scanned.all_eq]
  exact tokens

/-! ## Streams -/

/-- A stream shows its tokens one after the other, and then the last of them forever. -/
theorem TokenStream.peek_advance (s : TokenStream) {last : Token}
    (ending : (s.peek :: s.rest.map (·.token)).getLast? = some last) (n : Nat) :
    (advance^[n] s).peek = (s.peek :: s.rest.map (·.token)).getD n last := by
  induction n generalizing s with
  | zero => rfl
  | succ n ih =>
    rw [Function.iterate_succ_apply]
    cases upcoming : s.rest with
    | nil =>
      have stays : s.advance.peek = s.peek ∧ s.advance.rest = [] := by simp [advance, upcoming]
      rw [upcoming] at ending
      rw [ih s.advance (by rw [stays.1, stays.2, ending]), stays.1, stays.2]
      obtain rfl : s.peek = last := by simpa using ending
      cases n <;> rfl
    | cons next rest =>
      have moves : s.advance.peek = next.token ∧ s.advance.rest = rest := by
        simp [advance, upcoming]
      rw [upcoming] at ending
      rw [ih s.advance, moves.1, moves.2]
      · rfl
      · simpa [moves] using ending

/-- Lexing partitions every source, over any characters. Trivia and the texts of the tokens, none of
them empty and all in order, make up the source. Each token is at the line and column where its text
begins, and the end of the source is behind the last character. A stream gives at most one more token
than there are characters, then the end of the source again and again. -/
theorem Token.all_partition (source : List Char) :
    ∃ (stretches : List Token.Stretch) (ending : List Char),
      source = stretches.flatMap Stretch.whole ++ ending ∧
      IsEnding ending ∧
      Token.all source = stretches.map (·.token) ++ [⟨.eof, .behind source⟩] ∧
      (∀ front stretch back, stretches = front ++ stretch :: back →
        stretch.token.pos = .behind (front.flatMap Stretch.whole ++ stretch.trivia)) ∧
      (Token.all source).length ≤ source.length + 1 ∧
      ∀ n, (TokenStream.advance^[n + 1] (.ofSource source)).peek =
        (Token.all source).getD n ⟨.eof, .behind source⟩ := by
  obtain ⟨stretches, ending, partitions⟩ := (Piece.cuts_all source).partitions []
  have tokens : (Scanned.placed .start (Piece.all source)).map (·.token) = Token.all source := by
    rw [← Scanned.all_eq, Token.all]
  rw [Position.after_nil, tokens] at partitions
  have listed := partitions.listed
  simp only [nil_append, Position.start_after] at listed
  refine ⟨stretches, ending, partitions.concat, partitions.isEnding, listed, ?_,
    partitions.length_le, ?_⟩
  · intro front stretch back same
    simpa [Position.start_after] using partitions.place front stretch back same
  · intro n
    have last : (Token.all source).getLast? = some ⟨.eof, .behind source⟩ := by simp [listed]
    have all : (TokenStream.ofSource source).rest.map (·.token) = Token.all source := rfl
    rw [TokenStream.peek_advance _ (by rw [all, getLast?_cons, last, Option.getD_some]), all]
    rfl

end MicroJava

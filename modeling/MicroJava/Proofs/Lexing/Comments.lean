import MicroJava.Proofs.Lexing.Composition
import MicroJava.Proofs.Lexing.Partition

/-! # Comments end where they should

Wherever the lexer is about to read a token and finds a comment, it goes on behind the delimiter
that closes this comment and all comments in it. If there is none, the comment is the last thing in
the source, and the only problem that is left is that it is never closed.
-/

namespace MicroJava

open Trivia

namespace Scanned

/-- The lexer comes to a place of a source where it begins to read a token: it has passed the text
`before` and found tokens in it. -/
inductive Begins (source : List Char) :
    (before : List Char) → (found : List Scanned) → (text : List Char) → Prop where
  | start : Begins source [] [] source
  | trivia {before found trivia text} (begins : Begins source before found (trivia ++ text))
      (isTrivia : IsTrivia trivia) : Begins source (before ++ trivia) found text
  | lexeme {before found c rest} (begins : Begins source before found (c :: rest))
      (stops : Stops (c :: rest)) :
      Begins source (before ++ (Reading.ofText c rest).text)
        (found ++ [(ofPiece (.behind before) (.lexeme [] (Reading.ofText c rest))).1])
        (Reading.ofText c rest).rest

variable {source before text trivia body : List Char} {found : List Scanned}

/-- Trivia in front of a text only move its tokens. -/
theorem placed_append (isTrivia : IsTrivia trivia) (text : List Char) (pos : Position) :
    placed pos (Piece.all (trivia ++ text)) = placed (pos.after trivia) (Piece.all text) := by
  obtain ⟨pieces, cuts⟩ := Piece.exists_cuts text
  rw [cuts.all_eq]
  cases cuts with
  | lexeme inner stops more =>
    rw [← List.append_assoc, (Piece.Cuts.lexeme (isTrivia.append inner) stops more).all_eq]
    simp [placed, ofPiece, Position.after_append]
  | finish inner =>
    rw [(Piece.Cuts.finish (isTrivia.append inner)).all_eq]
    simp [placed, ofPiece, Position.after_append]
  | unclosed inner unclosed =>
    rw [← List.append_assoc, (Piece.Cuts.unclosed (isTrivia.append inner) unclosed).all_eq]
    obtain ⟨_⟩ := unclosed
    simp [placed, ofPiece, Position.after_append]

/-- What the lexer finds in the whole source is what it found before, and then what it finds in the
text that is left. -/
theorem Begins.all_eq (begins : Begins source before found text) :
    source = before ++ text ∧ all source = found ++ placed (.behind before) (Piece.all text) := by
  induction begins with
  | start => exact ⟨rfl, Scanned.all_eq source⟩
  | trivia _ isTrivia ih =>
    obtain ⟨same, tokens⟩ := ih
    refine ⟨by rw [same, List.append_assoc], ?_⟩
    rw [tokens, placed_append isTrivia]
    simp only [← Position.start_after, Position.after_append]
  | @lexeme before found c rest _ stops ih =>
    obtain ⟨same, tokens⟩ := ih
    have cuts := Piece.Cuts.lexeme .nil stops (Piece.cuts_all (Reading.ofText c rest).rest)
    refine ⟨by rw [same, List.append_assoc, (Reading.ofText_splits c rest).append], ?_⟩
    rw [tokens, ← List.nil_append (c :: rest), cuts.all_eq, placed, List.append_assoc]
    simp only [List.singleton_append, ← Position.start_after, Position.after_append]
    rfl

/-- Comments nest. Where the lexer begins to read a token before a comment, delimiters are found from
left to right. If they close the comment, the lexer goes on behind the delimiter that does so, with
the same tokens found and nothing to complain about. If they never do, it finds the end of the source
next and nothing more, with one problem at the place where the comment begins. -/
theorem comment_ends (begins : Begins source before found ('/' :: '*' :: body)) :
    (∀ front back, body = front ++ back → Closes 1 front →
      Begins source (before ++ '/' :: '*' :: front) found back ∧
      all source = found ++ placed (.behind (before ++ '/' :: '*' :: front)) (Piece.all back)) ∧
    ((∀ front back, body = front ++ back → ¬ Closes 1 front) →
      all source = found ++
        [⟨⟨.eof, .behind source⟩, [⟨.behind before, .lexical .unclosedComment⟩]⟩]) := by
  refine ⟨?_, fun never => ?_⟩
  · rintro front back rfl closes
    have isTrivia : IsTrivia ('/' :: '*' :: front) := by
      simpa using IsTrivia.comment closes .nil
    have behind := begins.trivia isTrivia
    exact ⟨behind, behind.all_eq.2⟩
  · obtain ⟨same, tokens⟩ := begins.all_eq
    have cuts := Piece.Cuts.unclosed .nil (.mk never)
    rw [tokens, ← List.nil_append ('/' :: '*' :: body), cuts.all_eq, same]
    simp [placed, ofPiece, ← Position.start_after, Position.after_append]

/-- Delimiters do not overlap: of the last three characters of the comment, the first one is plain. -/
theorem comment_ends_overlapping :
    Begins ('a' :: '/' :: '*' :: "/**/**/=".toList) ['a'] [⟨⟨.ident "a", ⟨1, 1⟩⟩, []⟩]
        ('/' :: '*' :: "/**/**/=".toList) ∧
      Closes 1 "/**/**/".toList ∧
      all ('a' :: '/' :: '*' :: "/**/**/=".toList) =
        [⟨⟨.ident "a", ⟨1, 1⟩⟩, []⟩, ⟨⟨.mark .assign, ⟨1, 11⟩⟩, []⟩, ⟨⟨.eof, ⟨1, 12⟩⟩, []⟩] := by
  have text : "/**/**/".toList = ['/', '*', '*', '/', '*', '*', '/'] := by decide
  have longer : "/**/**/=".toList = ['/', '*', '*', '/', '*', '*', '/'] ++ ['='] := by decide
  rw [text, longer]
  have begins := @Begins.lexeme _ _ _ _ _
    (@Begins.start ('a' :: '/' :: '*' :: (['/', '*', '*', '/', '*', '*', '/'] ++ ['='])))
    ⟨by decide, by decide⟩
  have closes : Closes 1 ['/', '*', '*', '/', '*', '*', '/'] :=
    .opens (.closes (.other rfl (.closes .done)))
  refine ⟨begins, closes, ?_⟩
  rw [((comment_ends begins).1 _ ['='] rfl closes).2]
  decide +kernel

end Scanned

end MicroJava

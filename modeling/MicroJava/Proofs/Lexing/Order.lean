import MicroJava.Proofs.Lexing.Piece

/-! # The order of places

Places are ordered by line and by column within a line. The tokens of a source come in strictly
increasing order, and what the lexer finds wrong with a token stands behind the token before and not
behind the token itself.
-/

namespace MicroJava

namespace Position

instance : LE Position := ⟨fun p q => p.line < q.line ∨ p.line = q.line ∧ p.col ≤ q.col⟩

instance : LT Position := ⟨fun p q => p.line < q.line ∨ p.line = q.line ∧ p.col < q.col⟩

variable {p q r : Position}

private theorem le_iff : p ≤ q ↔ p.line < q.line ∨ p.line = q.line ∧ p.col ≤ q.col := Iff.rfl

private theorem lt_iff : p < q ↔ p.line < q.line ∨ p.line = q.line ∧ p.col < q.col := Iff.rfl

protected theorem le_refl (p : Position) : p ≤ p := by
  rw [le_iff]
  omega

protected theorem le_trans (first : p ≤ q) (second : q ≤ r) : p ≤ r := by
  rw [le_iff] at *
  omega

protected theorem le_of_lt (lt : p < q) : p ≤ q := by
  rw [lt_iff] at lt
  rw [le_iff]
  omega

protected theorem lt_of_lt_of_le (first : p < q) (second : q ≤ r) : p < r := by
  rw [lt_iff] at *
  rw [le_iff] at second
  omega

private theorem lt_next (p : Position) (c : Char) : p < p.next c := by
  rw [lt_iff, next]
  split
  · exact .inl (Nat.lt_succ_self _)
  · exact .inr ⟨rfl, Nat.lt_succ_self _⟩

private theorem le_after (p : Position) (text : List Char) : p ≤ p.after text := by
  induction text generalizing p with
  | nil => exact p.le_refl
  | cons c text ih => exact Position.le_trans (Position.le_of_lt (p.lt_next c)) (ih _)

private theorem lt_after (p : Position) {text : List Char} (nonempty : text ≠ []) :
    p < p.after text := by
  cases text with
  | nil => exact absurd rfl nonempty
  | cons c text => exact Position.lt_of_lt_of_le (p.lt_next c) (le_after _ text)

end Position

namespace Scanned

/-- Whether what was found with a token is in order, lexical, and not behind the token. -/
structure Orderly (x : Scanned) : Prop where
  sorted : x.diagnostics.Pairwise fun d e => d.pos ≤ e.pos
  lexical : ∀ d ∈ x.diagnostics, d.problem.isLexical = true
  reached : ∀ d ∈ x.diagnostics, d.pos ≤ x.token.pos

/-- Whether a token, and what was found with it, stand behind another token. -/
structure Precedes (x y : Scanned) : Prop where
  token : x.token.pos < y.token.pos
  found : ∀ d ∈ y.diagnostics, x.token.pos ≤ d.pos

private theorem ofPiece_orderly (pos : Position) (piece : Piece) :
    (ofPiece pos piece).1.Orderly := by
  unfold ofPiece
  split
  · constructor
    · rw [List.pairwise_map]
      exact List.pairwise_of_forall fun _ _ => Position.le_refl _
    · simp [Problem.isLexical]
    · simp [Position.le_refl]
  · constructor <;> simp
  · constructor
    · simp
    · simp [Problem.isLexical]
    · simp [Position.le_after]

/-- Nothing of a piece stands before the place where the piece begins. -/
theorem ofPiece_begins (pos : Position) (piece : Piece) : pos ≤ (ofPiece pos piece).1.token.pos ∧
    ∀ d ∈ (ofPiece pos piece).1.diagnostics, pos ≤ d.pos := by
  unfold ofPiece
  split
  · simp [Position.le_after]
  · simp [Position.le_after]
  · next trivia unclosed _ =>
    have start := pos.le_after trivia
    exact ⟨Position.le_trans start (Position.le_after _ unclosed), by simp [start]⟩

/-- A lexeme ends behind the place where it begins. -/
theorem ofPiece_ends (pos : Position) (trivia : List Char) (c : Char) (rest : List Char) :
    (ofPiece pos (.lexeme trivia (.ofText c rest))).1.token.pos <
      (ofPiece pos (.lexeme trivia (.ofText c rest))).2 :=
  Position.lt_after _ (Reading.ofText_splits c rest).nonempty

private theorem placed_orderly (pos : Position) (pieces : List Piece) :
    ∀ x ∈ placed pos pieces, x.Orderly := by
  induction pieces generalizing pos with
  | nil => simp [placed]
  | cons piece pieces ih => exact List.forall_mem_cons.mpr ⟨ofPiece_orderly pos piece, ih _⟩

private theorem placed_precedes {text : List Char} {pieces : List Piece}
    (cuts : Piece.Cuts text pieces)
    (pos : Position) : (placed pos pieces).IsChain Precedes := by
  induction cuts generalizing pos with
  | @lexeme trivia c rest pieces _ _ _ ih =>
    have more := ih (ofPiece pos (.lexeme trivia (.ofText c rest))).2
    have ends := ofPiece_ends pos trivia c rest
    cases pieces with
    | nil => exact .singleton _
    | cons piece pieces =>
      have begins := ofPiece_begins (ofPiece pos (.lexeme trivia (.ofText c rest))).2 piece
      apply List.IsChain.cons_cons _ more
      constructor
      · exact Position.lt_of_lt_of_le ends begins.1
      · intro d found
        exact Position.le_trans (Position.le_of_lt ends) (begins.2 d found)
  | finish => exact .singleton _
  | unclosed => exact .singleton _

theorem all_orderly (source : List Char) : ∀ x ∈ all source, x.Orderly := by
  rw [all_eq]
  exact placed_orderly _ _

theorem all_precedes (source : List Char) : (all source).IsChain Precedes := by
  rw [all_eq]
  exact placed_precedes (Piece.cuts_all source) _

end Scanned

end MicroJava

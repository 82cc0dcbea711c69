import MicroJava.Proofs.Lexing.Printing

/-! # Lexing one text behind another

Blanks and comments separate lexemes: no lexeme that is read without a problem reaches into the
blank or comment behind it, so it is read the same whatever else follows. Two texts with trivia
between them are therefore cut into the pieces of the first, without its end, and the pieces of the
second.
-/

namespace MicroJava

open Trivia List

/-! ## What stops a lexeme -/

/-- Whether a character can begin a blank or a comment. -/
def Trivia.Begins (c : Char) : Prop := Text.isBlank c = true ∨ c = '/'

theorem Trivia.IsTrivia.append {front back : List Char} (first : IsTrivia front)
    (second : IsTrivia back) : IsTrivia (front ++ back) := by
  induction first with
  | nil => exact second
  | blank blank _ ih => exact .blank blank ih
  | comment closed _ ih =>
    rw [cons_append, cons_append, append_assoc]
    exact .comment closed ih

/-- A text consists of trivia exactly if trivia are all that is measured in it. -/
theorem Trivia.isTrivia_iff {text : List Char} :
    IsTrivia text ↔ extent text = ⟨text.length, false⟩ := by
  constructor
  · intro isTrivia
    have none : Stops [] := trivial
    have whole := isTrivia.extent_stops none
    rwa [append_nil] at whole
  · intro whole
    obtain ⟨trivia, rest, rfl, isTrivia, stops | unclosed⟩ := exists_trivia text
    · rw [isTrivia.extent_stops stops, Extent.mk.injEq, length_append] at whole
      obtain rfl : rest = [] := eq_nil_of_length_eq_zero (by omega)
      rwa [append_nil]
    · simp [isTrivia.extent_unclosed unclosed] at whole

instance Trivia.decidableIsTrivia (text : List Char) : Decidable (IsTrivia text) :=
  decidable_of_iff' _ isTrivia_iff

theorem Trivia.IsTrivia.begins {trivia : List Char} (isTrivia : IsTrivia trivia)
    (nonempty : trivia ≠ []) : ∃ d more, trivia = d :: more ∧ Begins d := by
  cases isTrivia with
  | nil => exact absurd rfl nonempty
  | blank blank _ => exact ⟨_, _, rfl, .inl blank⟩
  | comment _ _ => exact ⟨_, _, rfl, .inr rfl⟩

namespace Text

variable {c : Char}

/-- The blank characters beyond ASCII, as inclusive ranges of code points in ascending order. -/
def blankRanges : List (Nat × Nat) :=
  [(0x85, 0x85), (0xa0, 0xa0), (0x1680, 0x1680), (0x2000, 0x200a), (0x2028, 0x2029),
    (0x202f, 0x202f), (0x205f, 0x205f), (0x3000, 0x3000)]

private theorem blankRanges_disjoint : ∀ blank ∈ blankRanges, ∀ i < blank.2 + 1 - blank.1,
    isInRun false alphanumericRuns (blank.1 + i - 0x80) = false := by
  decide +kernel

private theorem low_or_mem_of_isBlank (blank : isBlank c = true) :
    c.toNat ≤ 0x20 ∨ ∃ range ∈ blankRanges, range.1 ≤ c.toNat ∧ c.toNat ≤ range.2 := by
  simp only [isBlank, Bool.or_eq_true, Bool.and_eq_true, decide_eq_true_eq, beq_iff_eq] at blank
  simp only [blankRanges, mem_cons, not_mem_nil, or_false, exists_eq_or_imp, exists_eq_left]
  omega

end Text

namespace Reading

variable {c d : Char} {text rest more back : List Char} {m : Mark} {n : Nat}

private theorem isDigit_of_isBlank (blank : Text.isBlank d = true) : d.isDigit = false := by
  rw [Bool.eq_false_iff]
  intro digit
  have visible : Stops [d] := stops_of_isDigit digit
  exact Bool.false_ne_true (visible.1.symm.trans blank)

private theorem isAlpha_of_isBlank (blank : Text.isBlank d = true) : d.isAlpha = false := by
  rw [Bool.eq_false_iff]
  intro alpha
  have visible : Stops [d] := stops_of_startsWord alpha
  exact Bool.false_ne_true (visible.1.symm.trans blank)

private theorem isAlphanumeric_of_isBlank (blank : Text.isBlank d = true) :
    Text.isAlphanumeric d = false := by
  unfold Text.isAlphanumeric
  split
  · rw [Char.isAlphanum, isAlpha_of_isBlank blank, isDigit_of_isBlank blank, Bool.or_self]
  · next wide =>
    rcases Text.low_or_mem_of_isBlank blank with low | ⟨blanks, listed, above, below⟩
    · omega
    · have other := Text.blankRanges_disjoint blanks listed (d.toNat - blanks.1) (by omega)
      rwa [Nat.add_sub_cancel' above] at other

private theorem continuesWord_of_begins (begins : Begins d) : continuesWord d = false := by
  rcases begins with blank | rfl
  · have other : d ≠ '_' := by
      rintro rfl
      cases blank
    simp [continuesWord, isAlphanumeric_of_isBlank blank, other]
  · decide

private theorem isDigit_of_begins (begins : Begins d) : d.isDigit = false := by
  rcases begins with blank | rfl
  · exact isDigit_of_isBlank blank
  · rfl

private theorem span_append {p : Char → Bool} (ends : p d = false) :
    (text ++ d :: back).span p = ((text.span p).1, (text.span p).2 ++ d :: back) := by
  simp only [span_eq_takeWhile_dropWhile]
  induction text with
  | nil => simp [ends]
  | cons c text ih =>
    cases inside : p c with
    | true => simpa [inside] using ih
    | false => simp [inside]

/-! ## Marks -/

/-- A mark that may be continued to a longer one is a mark also by itself. -/
theorem mark?_ne_none (begins : c ∈ ['=', '*', '%', '<', '>', '+', '-', '/', '.']) :
    mark? (c :: more) ≠ none := by
  intro none
  unfold mark? at none
  split at none
  case h_34 =>
    simp only [mem_cons, not_mem_nil, or_false] at begins
    rcases begins with rfl | rfl | rfl | rfl | rfl | rfl | rfl | rfl | rfl <;> solve_by_elim
  all_goals cases none

private theorem two_le_mark? : ∃ m n, mark? ('.' :: '.' :: more) = some (m, n) ∧ 2 ≤ n := by
  unfold mark?
  split
  case h_31 => exact ⟨_, _, rfl, by decide⟩
  case h_32 => exact ⟨_, _, rfl, by decide⟩
  case h_33 notTwo same =>
    cases same
    exact absurd rfl (notTwo _)
  case h_34 => solve_by_elim
  all_goals
    rename_i same
    cases same

theorem mark?_length (found : mark? text = some (m, n)) : n = m.spelling.toList.length := by
  unfold mark? at found
  split at found <;> cases found <;> rfl

/-- A mark at the front of a text is read, or a longer one. -/
theorem le_mark? (atFront : m.spelling.toList <+: text) :
    ∃ m' n, mark? text = some (m', n) ∧ m.spelling.toList.length ≤ n := by
  obtain ⟨more, rfl⟩ := atFront
  have single (c) (begins : c ∈ ['=', '*', '%', '<', '>', '+', '-', '/', '.']) :
      ∃ m' n, mark? (c :: more) = some (m', n) ∧ 1 ≤ n := by
    have read : mark? (c :: more) ≠ none := mark?_ne_none begins
    obtain ⟨⟨m', n⟩, found⟩ := Option.ne_none_iff_exists'.mp read
    refine ⟨m', n, found, ?_⟩
    rw [mark?_length found]
    cases m' <;> decide
  cases m
  case twoPeriods => exact two_le_mark?
  case assign | times | percent | less | greater | plus | minus | slash | period =>
    exact single _ (by decide)
  all_goals exact ⟨_, _, rfl, by decide⟩

private theorem mark?_atFront (found : mark? text = some (m, n)) : m.spelling.toList <+: text := by
  rw [← mark?_spelling found]
  exact take_prefix n text

/-- Marks of one length at the front of one text are the same. -/
theorem mark_unique {m' : Mark} (first : m.spelling.toList <+: text)
    (second : m'.spelling.toList <+: text)
    (same : m.spelling.toList.length = m'.spelling.toList.length) : m = m' := by
  have own (m : Mark) : mark? m.spelling.toList = some (m, m.spelling.toList.length) := by
    cases m <;> rfl
  have spellings : m.spelling.toList = m'.spelling.toList :=
    (prefix_of_prefix_length_le first second (Nat.le_of_eq same)).eq_of_length same
  have both := own m
  rw [spellings, own m'] at both
  cases both
  rfl

/-- No mark goes on with a blank or a slash. -/
theorem not_begins_of_mem_tail (inside : c ∈ m.spelling.toList.tail) : ¬ Begins c := by
  have none : m.spelling.toList.tail.all (fun c => !(Text.isBlank c || c == '/')) = true := by
    cases m <;> decide
  simpa [Begins] using all_eq_true.mp none c inside

private theorem mem_tail_of_length_lt {spelling : List Char}
    (atFront : spelling <+: c :: text ++ d :: back)
    (beyond : (c :: text).length < spelling.length) : d ∈ spelling.tail := by
  have whole : c :: text ++ [d] <+: c :: text ++ d :: back := ⟨back, by simp⟩
  obtain ⟨more, rfl⟩ := prefix_of_prefix_length_le whole atFront (by simp at *; omega)
  simp

private theorem mark?_append (found : mark? (c :: text) = some (m, n)) (begins : Begins d) :
    mark? (c :: text ++ d :: back) = some (m, n) := by
  have atFront := mark?_atFront found
  obtain ⟨m', n', found', longer⟩ := le_mark? (atFront.trans (prefix_append _ (d :: back)))
  have atFront' := mark?_atFront found'
  have length := mark?_length found
  have length' := mark?_length found'
  have inside : m'.spelling.toList.length ≤ (c :: text).length := by
    apply Nat.le_of_not_lt
    intro beyond
    exact not_begins_of_mem_tail (mem_tail_of_length_lt atFront' beyond) begins
  have atFront' := prefix_of_prefix_length_le atFront' (prefix_append _ _) inside
  obtain ⟨_, _, found'', shorter⟩ := le_mark? atFront'
  rw [found] at found''
  cases found''
  obtain rfl := mark_unique atFront atFront' (by omega)
  rw [found', length, length']

/-! ## Lexemes -/

/-- A reading with more text behind it. -/
def before (reading : Reading) (back : List Char) : Reading :=
  { reading with rest := reading.rest ++ back }

private theorem word_append (text : List Char) (begins : Begins d) :
    word (text ++ d :: back) = (word text).before (d :: back) := by
  unfold word
  rw [span_append (continuesWord_of_begins begins)]
  simp only
  split <;> rfl

private theorem number_append (text : List Char) (begins : Begins d) :
    number (text ++ d :: back) = (number text).before (d :: back) := by
  unfold number
  rw [span_append (isDigit_of_begins begins)]
  simp only
  split <;> rfl

private theorem closeQuote_append {value : Int32} {problems : List LexicalProblem}
    (clean : (closeQuote text value problems rest).problems = []) :
    closeQuote text value problems (rest ++ back) =
      (closeQuote text value problems rest).before back := by
  unfold closeQuote at clean
  split at clean
  · rfl
  · simp at clean

private theorem charConst_append (clean : (charConst rest).problems = []) :
    charConst (rest ++ back) = (charConst rest).before back := by
  unfold charConst at clean
  split at clean
  · cases clean
  · cases clean
  · simp only [cons_append, charConst]
    split at clean <;> exact closeQuote_append clean
  · cases clean
  · next c rest notLast notEscape notQuote =>
    split at clean
    · cases clean
    · next inLine =>
      have plain : c ≠ '\\' := by
        rintro rfl
        cases rest with
        | nil => exact notLast rfl rfl
        | cons d rest => exact notEscape d rest rfl rfl
      rw [cons_append, charConst.eq_5 _ _ notLast notEscape notQuote, charConst.eq_5 _ _
        (fun same => absurd same plain) (fun _ _ same => absurd same plain) notQuote,
        if_neg inLine, if_neg inLine]
      exact closeQuote_append clean

/-- A lexeme that is read without a problem ends before a blank or comment, whatever follows. -/
theorem ofText_append (clean : (ofText c rest).problems = []) (begins : Begins d) :
    ofText c (rest ++ d :: back) = (ofText c rest).before (d :: back) := by
  unfold ofText at clean ⊢
  by_cases letter : startsWord c = true
  · simp only [if_pos letter]
    exact word_append (c :: rest) begins
  by_cases digit : c.isDigit = true
  · simp only [if_neg letter, if_pos digit]
    exact number_append (c :: rest) begins
  by_cases quote : c = '\''
  · simp only [if_neg letter, if_neg digit, if_pos quote] at clean ⊢
    exact charConst_append clean
  simp only [if_neg letter, if_neg digit, if_neg quote] at clean ⊢
  cases found : mark? (c :: rest) with
  | none => simp [found] at clean
  | some mark =>
    obtain ⟨m, n⟩ := mark
    have within : n ≤ (c :: rest).length := by
      rw [mark?_length found]
      exact (mark?_atFront found).length_le
    rw [← cons_append, mark?_append found begins]
    simp only [before, Reading.mk.injEq, true_and]
    constructor
    · exact take_append_of_le_length within
    · exact drop_append_of_le_length within

private theorem stops_append (stops : Stops (c :: rest)) (begins : Begins d) :
    Stops (c :: (rest ++ d :: back)) := by
  obtain ⟨visible, noComment⟩ := stops
  constructor
  · exact visible
  · rintro ⟨slash, star⟩
    cases rest with
    | nil =>
      obtain rfl : d = '*' := Option.some.inj star
      rcases begins with blank | other
      · cases blank
      · cases other
    | cons e rest => exact noComment ⟨slash, star⟩

end Reading

/-! ## Pieces -/

namespace Piece

variable {first trivia text : List Char} {pieces : List Piece}

/-- What a piece says, without its place. -/
def told : Piece → Lexeme × List LexicalProblem
  | .lexeme _ reading => (reading.lexeme, reading.problems)
  | .finish _ [] => (.eof, [])
  | .finish _ (_ :: _) => (.eof, [.unclosedComment])

theorem IsUnclosed.told_finish (unclosed : IsUnclosed text) :
    told (.finish trivia text) = (.eof, [.unclosedComment]) := by
  obtain ⟨_⟩ := unclosed
  rfl

/-- Trivia in front of a text change nothing. -/
theorem Cuts.behind (cuts : Cuts text pieces) (isTrivia : IsTrivia trivia) :
    ∃ pieces', Cuts (trivia ++ text) pieces' ∧ pieces'.map told = pieces.map told := by
  cases cuts with
  | lexeme inner stops more =>
    rw [← append_assoc]
    exact ⟨_, .lexeme (isTrivia.append inner) stops more, rfl⟩
  | finish inner => exact ⟨_, .finish (isTrivia.append inner), rfl⟩
  | unclosed inner unclosed =>
    rw [← append_assoc]
    exact ⟨_, .unclosed (isTrivia.append inner) unclosed, by
      simp [IsUnclosed.told_finish unclosed]⟩

/-- A text in which nothing is wrong, trivia and another text are cut one after the other. -/
theorem Cuts.append (cuts : Cuts first pieces) (clean : ∀ piece ∈ pieces, piece.told.2 = [])
    (isTrivia : IsTrivia trivia) (nonempty : trivia ≠ []) (second : List Char) :
    ∃ front all, pieces.map told = front ++ [(.eof, [])] ∧ (∀ x ∈ front, x.2 = []) ∧
      Cuts (first ++ (trivia ++ second)) all ∧
      all.map told = front ++ (Piece.all second).map told := by
  obtain ⟨d, more, rfl, begins⟩ := isTrivia.begins nonempty
  rw [cons_append]
  induction cuts with
  | @lexeme inner c rest pieces isInner stops _ ih =>
    obtain ⟨now, later⟩ := forall_mem_cons.mp clean
    obtain ⟨front, all, same, none, cuts, tells⟩ := ih later
    have read : Reading.ofText c (rest ++ d :: (more ++ second)) =
        (Reading.ofText c rest).before (d :: (more ++ second)) := Reading.ofText_append now begins
    rw [append_assoc, cons_append]
    have more' : Cuts (Reading.ofText c (rest ++ d :: (more ++ second))).rest all := by
      rw [read]
      exact cuts
    refine ⟨_ :: front, _, congrArg (_ :: ·) same, forall_mem_cons.mpr ⟨now, none⟩,
      .lexeme isInner (Reading.stops_append stops begins) more', ?_⟩
    rw [read]
    exact congrArg (_ :: ·) tells
  | finish isInner =>
    obtain ⟨all, cuts, tells⟩ := (cuts_all second).behind (isInner.append isTrivia)
    rw [append_assoc, cons_append] at cuts
    exact ⟨[], all, rfl, by simp, cuts, tells⟩
  | unclosed _ unclosed =>
    have none := clean _ (mem_singleton_self _)
    rw [IsUnclosed.told_finish unclosed] at none
    cases none

end Piece

/-! ## Tokens -/

namespace Scanned

private theorem ofPiece_told (pos : Position) (piece : Piece) :
    (ofPiece pos piece).1.diagnostics.map (·.problem) = piece.told.2.map .lexical := by
  cases piece with
  | lexeme trivia reading => simp [ofPiece, Piece.told]
  | finish trivia unclosed => cases unclosed <;> rfl

private theorem placed_told (pos : Position) (pieces : List Piece) :
    ((placed pos pieces).flatMap (·.diagnostics)).map (·.problem) =
      (pieces.map Piece.told).flatMap fun told => told.2.map Problem.lexical := by
  induction pieces generalizing pos with
  | nil => rfl
  | cons piece pieces ih => simpa [placed, ofPiece_told] using ih _

end Scanned

theorem Piece.told_fst (piece : Piece) : piece.told.1 = piece.content := by
  unfold told
  split <;> rfl

theorem Token.lexemes_eq (source : List Char) :
    (Token.all source).map (·.lexeme) = ((Piece.all source).map Piece.told).map Prod.fst := by
  have same := Scanned.placed_lexemes .start (Piece.all source)
  rw [← Scanned.all_eq] at same
  simpa [Token.all, Function.comp_def, Piece.told_fst] using same

theorem Diagnostic.problems_eq (source : List Char) :
    (Diagnostic.lexical source).map (·.problem) =
      ((Piece.all source).map Piece.told).flatMap fun told => told.2.map Problem.lexical := by
  rw [Diagnostic.lexical, Scanned.all_eq, Scanned.placed_told]

/-- Blanks and comments between two texts separate their tokens and are otherwise transparent. If
nothing is wrong in the first text, the tokens are those of the first up to its end and then those
of the second, and the problems are those of the second. -/
theorem Token.all_append {first trivia : List Char} (clean : Diagnostic.lexical first = [])
    (isTrivia : IsTrivia trivia) (nonempty : trivia ≠ []) (second : List Char) :
    ∃ front, (Token.all first).map (·.lexeme) = front ++ [.eof] ∧
      (Token.all (first ++ trivia ++ second)).map (·.lexeme) =
        front ++ (Token.all second).map (·.lexeme) ∧
      (Diagnostic.lexical (first ++ trivia ++ second)).map (·.problem) =
        (Diagnostic.lexical second).map (·.problem) := by
  have quiet : ∀ piece ∈ Piece.all first, piece.told.2 = [] := by
    have none := Diagnostic.problems_eq first
    rw [clean, map_nil, eq_comm, flatMap_eq_nil_iff] at none
    intro piece member
    exact map_eq_nil_iff.mp (none _ (mem_map_of_mem member))
  obtain ⟨front, all, same, none, cuts, tells⟩ :=
    (Piece.cuts_all first).append quiet isTrivia nonempty second
  rw [append_assoc]
  refine ⟨front.map Prod.fst, ?_, ?_, ?_⟩
  · rw [lexemes_eq, same, map_append]
    rfl
  · rw [lexemes_eq, lexemes_eq, cuts.all_eq, tells, map_append]
  · rw [Diagnostic.problems_eq, Diagnostic.problems_eq, cuts.all_eq, tells, flatMap_append,
      flatMap_eq_nil_iff.mpr (fun told member => by rw [none told member]; rfl),
      nil_append]

/-- A comment may stand right behind a slash, and what is wrong in the second text stays wrong. -/
theorem Token.all_append_slash : Diagnostic.lexical "x = 2/".toList = [] ∧
    IsTrivia "/* a /* b */ */".toList ∧
    (Token.all ("x = 2/".toList ++ "/* a /* b */ */".toList ++ "/= 'y".toList)).map (·.lexeme) =
      [.ident "x", .mark .assign, .number 2, .mark .slash] ++
        [.mark .slashAssign, .charConst 121, .eof] ∧
    (Diagnostic.lexical ("x = 2/".toList ++ "/* a /* b */ */".toList ++ "/= 'y".toList)).map
      (·.problem) = [.lexical .missingQuote] := by
  have clean : Diagnostic.lexical "x = 2/".toList = [] := by decide +kernel
  have isTrivia : IsTrivia "/* a /* b */ */".toList := by decide +kernel
  obtain ⟨front, first, all, problems⟩ :=
    Token.all_append clean isTrivia (by decide) "/= 'y".toList
  have lexemes : (Token.all "x = 2/".toList).map (·.lexeme) =
      [.ident "x", .mark .assign, .number 2, .mark .slash] ++ [.eof] := by decide +kernel
  obtain rfl := append_cancel_right (lexemes.symm.trans first)
  rw [all, problems]
  decide +kernel

end MicroJava

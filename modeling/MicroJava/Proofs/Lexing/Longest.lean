import Mathlib.Data.Nat.Digits.Defs
import MicroJava.Proofs.Lexing.Composition
import MicroJava.Proofs.Lexing.Partition

/-! # Tokens are as long as possible

`IsLexeme` lists the lexemes of the language with their kinds and values, without regard to how they
are read. What the lexer reads without a problem is the longest of them at the front of the text that
is left. A run of digits is a problem exactly when its value does not fit, however long it is.
-/

namespace MicroJava

open Trivia List Reading Scanned

/-! ## The lexemes of the language -/

/-- The number that decimal digits mean, the last of which counts once. -/
def decimalValue (digits : List Char) : Nat :=
  Nat.ofDigits 10 (digits.map fun c => c.toNat - '0'.toNat).reverse

/-- A character constant as it is written. -/
def quoted (c : Char) : List Char := '\'' :: Printable.escaped c ++ ['\'']

/-- The texts of the language that are lexemes, with their kind and their value, which is zero unless
they are numbers or characters. -/
inductive IsLexeme : List Char → TokenKind → Int → Prop where
  | mark (m : Mark) : IsLexeme m.spelling.toList (.mark m) 0
  | keyword (k : Keyword) : IsLexeme k.spelling.toList (.keyword k) 0
  | ident {c : Char} {rest : List Char} (letter : c.isAlpha = true)
      (continues : ∀ d ∈ rest, Text.isAlphanumeric d = true ∨ d = '_')
      (free : ∀ k : Keyword, k.spelling.toList ≠ c :: rest) : IsLexeme (c :: rest) .ident 0
  | number {digits : List Char} (nonempty : digits ≠ []) (all : ∀ d ∈ digits, d.isDigit = true) :
      IsLexeme digits .number (decimalValue digits)
  | charConst (c : Char) : IsLexeme (quoted c) .charConst c.toNat

/-- Whether a text is the longest lexeme at the front of another text, and of which kind and value
it is. -/
structure IsLongest (text remaining : List Char) (kind : TokenKind) (value : Int) : Prop where
  atFront : text <+: remaining
  isLexeme : IsLexeme text kind value
  longest : ∀ other kind' value', other <+: remaining → IsLexeme other kind' value' →
    other.length ≤ text.length
  unique : ∀ kind' value', IsLexeme text kind' value' → kind' = kind ∧ value' = value

private theorem quoted_injective {c d : Char} (same : quoted c = quoted d) : c = d := by
  have read := charConst_escaped c []
  have read' := charConst_escaped d []
  have inner : Printable.escaped c ++ ['\''] = Printable.escaped d ++ ['\''] :=
    (cons.inj same).2
  rw [inner, read'] at read
  have values : Lexeme.charConst (codePoint d) = .charConst (codePoint c) :=
    congrArg lexeme read
  have number := Printable.lexeme_value (.charConst c)
  rw [show (Printable.charConst c).lexeme = (Printable.charConst d).lexeme from values.symm,
    Printable.lexeme_value (.charConst d)] at number
  exact (Char.toNat_inj.mp (Int.ofNat.inj number)).symm

namespace IsLexeme

variable {c : Char} {rest text : List Char} {kind : TokenKind} {value : Int}

private theorem mark_starts (m : Mark) : ∃ c rest, m.spelling.toList = c :: rest ∧
    startsWord c = false ∧ c.isDigit = false ∧ c ≠ '\'' := by
  cases m <;> exact ⟨_, _, rfl, by decide⟩

private theorem keyword_starts (k : Keyword) : ∃ c rest, k.spelling.toList = c :: rest ∧
    startsWord c = true ∧ (c :: rest).all continuesWord = true := by
  cases k <;> exact ⟨_, _, rfl, by decide⟩

private theorem ofWord_spelling (k : Keyword) :
    Lexeme.ofWord (String.ofList k.spelling.toList) = .keyword k := by
  rw [String.ofList_toList]
  cases k <;> decide

private theorem ofWord_free (free : ∀ k : Keyword, k.spelling.toList ≠ text) :
    Lexeme.ofWord (String.ofList text) = .ident (String.ofList text) := by
  have none : Keyword.ofSpelling? (String.ofList text) = none := by
    apply find?_eq_none.mpr
    intro k _ same
    apply free k
    rw [beq_iff_eq.mp same, String.toList_ofList]
  rw [Lexeme.ofWord, none]

/-- The first character decides which kind of lexeme a text can be. -/
theorem shape (isLexeme : IsLexeme (c :: rest) kind value) :
    if startsWord c then
      (c :: rest).all continuesWord = true ∧
        kind = (Lexeme.ofWord (String.ofList (c :: rest))).kind ∧ value = 0
    else if c.isDigit then
      (c :: rest).all Char.isDigit = true ∧ kind = .number ∧ value = decimalValue (c :: rest)
    else if c = '\'' then ∃ d, c :: rest = quoted d ∧ kind = .charConst ∧ value = d.toNat
    else ∃ m : Mark, c :: rest = m.spelling.toList ∧ kind = .mark m ∧ value = 0 := by
  generalize written : c :: rest = text at isLexeme
  cases isLexeme with
  | mark m =>
    obtain ⟨d, more, spelling, noWord, noDigit, noQuote⟩ := mark_starts m
    obtain ⟨rfl, rfl⟩ := cons.inj (written.trans spelling)
    rw [if_neg (by simp [noWord]), if_neg (by simp [noDigit]), if_neg noQuote]
    exact ⟨m, rfl, rfl, rfl⟩
  | keyword k =>
    obtain ⟨d, more, spelling, starts, continues⟩ := keyword_starts k
    obtain ⟨rfl, rfl⟩ := cons.inj (written.trans spelling)
    rw [if_pos starts, ofWord_spelling, spelling]
    exact ⟨continues, rfl, rfl⟩
  | ident letter continues free =>
    obtain ⟨rfl, rfl⟩ := cons.inj written
    have starts : startsWord c = true := letter
    rw [if_pos starts, ofWord_free free, all_cons,
      continuesWord_of_startsWord starts, Bool.true_and, all_eq_true]
    refine ⟨fun d member => ?_, rfl, rfl⟩
    simpa [continuesWord] using continues d member
  | number nonempty all =>
    subst written
    have digit := all c mem_cons_self
    have noWord : ¬ startsWord c = true := by
      intro starts
      have := ascii_of_startsWord starts
      have := ascii_of_isDigit digit
      omega
    rw [if_neg noWord, if_pos digit, all_eq_true]
    exact ⟨all, rfl, rfl⟩
  | charConst d =>
    obtain ⟨rfl, rfl⟩ := cons.inj written
    rw [if_neg (by decide), if_neg (by decide), if_pos rfl]
    exact ⟨d, rfl, rfl, rfl⟩

private theorem ne_nil (isLexeme : IsLexeme text kind value) : text ≠ [] := by
  cases isLexeme with
  | mark m =>
    obtain ⟨_, _, spelling, _⟩ := mark_starts m
    simp [spelling]
  | keyword k =>
    obtain ⟨_, _, spelling, _⟩ := keyword_starts k
    simp [spelling]
  | ident => simp
  | number nonempty => exact nonempty
  | charConst => simp [quoted]

/-- A lexeme at the front of a text begins like the text. -/
theorem exists_cons (isLexeme : IsLexeme text kind value) {remaining : List Char}
    (atFront : text <+: c :: remaining) : ∃ rest, text = c :: rest := by
  obtain ⟨more, whole⟩ := atFront
  cases text with
  | nil => exact absurd rfl isLexeme.ne_nil
  | cons d rest => exact ⟨rest, by rw [(cons.inj whole).1]⟩

/-- A text is a lexeme of one kind and value only. -/
theorem unique {kind' : TokenKind} {value' : Int} (first : IsLexeme text kind value)
    (second : IsLexeme text kind' value') : kind' = kind ∧ value' = value := by
  cases text with
  | nil => exact absurd rfl first.ne_nil
  | cons c rest =>
    have shape := first.shape
    have shape' := second.shape
    split at shape
    · next starts =>
      rw [if_pos starts] at shape'
      exact ⟨shape'.2.1.trans shape.2.1.symm, shape'.2.2.trans shape.2.2.symm⟩
    · next noWord =>
      rw [if_neg noWord] at shape'
      split at shape
      · next digit =>
        rw [if_pos digit] at shape'
        exact ⟨shape'.2.1.trans shape.2.1.symm, shape'.2.2.trans shape.2.2.symm⟩
      · next noDigit =>
        rw [if_neg noDigit] at shape'
        split at shape
        · next quote =>
          rw [if_pos quote] at shape'
          obtain ⟨d, same, rfl, rfl⟩ := shape
          obtain ⟨d', same', rfl, rfl⟩ := shape'
          obtain rfl := quoted_injective (same.symm.trans same')
          exact ⟨rfl, rfl⟩
        · next noQuote =>
          rw [if_neg noQuote] at shape'
          obtain ⟨m, same, rfl, rfl⟩ := shape
          obtain ⟨m', same', rfl, rfl⟩ := shape'
          have spellings := same.symm.trans same'
          obtain rfl := mark_unique prefix_rfl (spellings ▸ prefix_rfl)
            (congrArg length spellings)
          exact ⟨rfl, rfl⟩

end IsLexeme

namespace Reading

variable {c d : Char} {rest other : List Char} {p : Char → Bool} {kind : TokenKind} {value : Int}

/-! ## Words and numbers -/

private theorem decimal_eq (digits : List Char) : decimal digits = decimalValue digits := by
  induction digits using reverseRecOn with
  | nil => rfl
  | append_singleton digits c ih =>
    rw [decimal, foldl_append]
    change 10 * decimal digits + (c.toNat - '0'.toNat) = _
    rw [ih, decimalValue, decimalValue, map_append, reverse_append]
    simp only [map_cons, map_nil, reverse_cons, reverse_nil, nil_append,
      cons_append, Nat.ofDigits_cons]
    exact Nat.add_comm ..

private theorem length_le_takeWhile {text : List Char} (atFront : other <+: text)
    (all : other.all p = true) : other.length ≤ (text.takeWhile p).length := by
  obtain ⟨more, rfl⟩ := atFront
  rw [takeWhile_append_of_pos (all_eq_true.mp all), length_append]
  omega

private theorem word_eq (text : List Char) :
    word text = {
      text := text.takeWhile continuesWord
      lexeme := .ofWord (String.ofList (text.takeWhile continuesWord))
      rest := text.dropWhile continuesWord } := by
  simp only [word, span_eq_takeWhile_dropWhile, Lexeme.ofWord]
  cases Keyword.ofSpelling? (String.ofList (text.takeWhile continuesWord)) <;> rfl

private theorem word_isLexeme (starts : startsWord c = true) :
    IsLexeme (word (c :: rest)).text (word (c :: rest)).lexeme.kind
      (word (c :: rest)).lexeme.value.toInt := by
  have letters : (c :: rest).takeWhile continuesWord = c :: rest.takeWhile continuesWord := by
    simp [continuesWord_of_startsWord starts]
  rw [word_eq, letters]
  by_cases reserved : ∃ k : Keyword, k.spelling.toList = c :: rest.takeWhile continuesWord
  · obtain ⟨k, spelling⟩ := reserved
    rw [← spelling, IsLexeme.ofWord_spelling]
    exact .keyword k
  · have free := not_exists.mp reserved
    rw [IsLexeme.ofWord_free free]
    apply IsLexeme.ident starts _ free
    intro d member
    have continues := all_eq_true.mp (all_takeWhile (p := continuesWord)) d member
    simpa [continuesWord] using continues

private theorem word_longest (starts : startsWord c = true) (atFront : other <+: c :: rest)
    (isLexeme : IsLexeme other kind value) : other.length ≤ (word (c :: rest)).text.length := by
  obtain ⟨more, rfl⟩ := isLexeme.exists_cons atFront
  have shape := isLexeme.shape
  rw [if_pos starts] at shape
  rw [word_eq]
  exact length_le_takeWhile atFront shape.1

/-- A run of digits is read as a whole. It is a problem exactly if its value is too big. -/
theorem number_eq {digits more : List Char} (all : ∀ d ∈ digits, d.isDigit = true)
    (ends : ∀ d, more.head? = some d → d.isDigit = false) :
    number (digits ++ more) =
      if decimalValue digits < 0x80000000 then
        { text := digits, lexeme := .number (Int32.ofNat (decimalValue digits)), rest := more }
      else
        { text := digits, lexeme := .number 0, rest := more,
          problems := [.numberTooBig (String.ofList digits)] } := by
  have run : (digits ++ more).span Char.isDigit = (digits, more) := by
    rw [span_eq_takeWhile_dropWhile, takeWhile_append_of_pos all, dropWhile_append_of_pos all]
    cases more with
    | nil => simp
    | cons d more => simp [ends d rfl]
  rw [number, run]
  simp only [decimal_eq, maxNumber, Nat.lt_succ_iff]

private theorem exists_digits (digit : c.isDigit = true) :
    ∃ digits more, c :: rest = digits ++ more ∧
    digits ≠ [] ∧ (∀ d ∈ digits, d.isDigit = true) ∧
    ∀ d, more.head? = some d → d.isDigit = false := by
  refine ⟨(c :: rest).takeWhile Char.isDigit, (c :: rest).dropWhile Char.isDigit,
    takeWhile_append_dropWhile.symm, by simp [digit],
    all_eq_true.mp all_takeWhile, ?_⟩
  intro d first
  have stopped := head?_dropWhile_not Char.isDigit (c :: rest)
  rw [first] at stopped
  simpa using stopped

private theorem number_isLexeme (digit : c.isDigit = true)
    (clean : (number (c :: rest)).problems = []) :
    IsLexeme (number (c :: rest)).text (number (c :: rest)).lexeme.kind
      (number (c :: rest)).lexeme.value.toInt := by
  obtain ⟨digits, more, written, nonempty, all, ends⟩ := @exists_digits c rest digit
  rw [written, number_eq all ends] at clean ⊢
  split at clean
  · next small =>
    rw [if_pos small]
    have value : (Int32.ofNat (decimalValue digits)).toInt = decimalValue digits :=
      Int32.toInt_ofNat_of_lt small
    simp only [Lexeme.kind, Lexeme.value, value]
    exact .number nonempty all
  · simp at clean

private theorem number_longest (noWord : ¬ startsWord c = true) (digit : c.isDigit = true)
    (atFront : other <+: c :: rest) (isLexeme : IsLexeme other kind value) :
    other.length ≤ (number (c :: rest)).text.length := by
  obtain ⟨more, rfl⟩ := isLexeme.exists_cons atFront
  have shape := isLexeme.shape
  rw [if_neg noWord, if_pos digit] at shape
  have run : (number (c :: rest)).text = (c :: rest).takeWhile Char.isDigit := by
    simp only [number, span_eq_takeWhile_dropWhile]
    split <;> rfl
  rw [run]
  exact length_le_takeWhile atFront shape.1

/-! ## Characters and marks -/

private theorem closeQuote_clean {text : List Char} {read : Int32} {problems : List LexicalProblem}
    (clean : (closeQuote text read problems rest).problems = []) :
    (∃ more, rest = '\'' :: more) ∧ problems = [] := by
  unfold closeQuote at clean
  split at clean
  · exact ⟨⟨_, rfl⟩, clean⟩
  · simp at clean

private theorem escaped_of_escape? (isEscape : escape? c = some d) :
    Printable.escaped d = ['\\', c] := by
  unfold escape? at isEscape
  split at isEscape <;> cases isEscape <;> rfl

private theorem escaped_plain (inLine : ¬ (c = '\n' ∨ c = '\r')) (noQuote : c ≠ '\'')
    (plain : c ≠ '\\') :
    Printable.escaped c = [c] := by
  unfold Printable.escaped
  split
  · exact absurd (.inr rfl) inLine
  · exact absurd (.inl rfl) inLine
  · exact absurd rfl noQuote
  · exact absurd rfl plain
  · rfl

/-- What is read without a problem behind a quote is a character and another quote. -/
theorem charConst_clean (clean : (charConst rest).problems = []) :
    ∃ d more, rest = Printable.escaped d ++ '\'' :: more := by
  unfold charConst at clean
  split at clean
  · cases clean
  · cases clean
  · split at clean
    · next meant isEscape =>
      obtain ⟨⟨more, rfl⟩, _⟩ := closeQuote_clean clean
      exact ⟨meant, more, by rw [escaped_of_escape? isEscape]; rfl⟩
    · cases (closeQuote_clean clean).2
  · cases clean
  · next c rest notLast notEscape notQuote =>
    split at clean
    · cases clean
    · next inLine =>
      obtain ⟨⟨more, rfl⟩, _⟩ := closeQuote_clean clean
      have plain : c ≠ '\\' := fun same => notEscape _ _ same rfl
      exact ⟨c, more, by rw [escaped_plain inLine notQuote plain]; rfl⟩

private theorem charConst_isLexeme (clean : (charConst rest).problems = []) :
    IsLexeme (charConst rest).text (charConst rest).lexeme.kind
      (charConst rest).lexeme.value.toInt := by
  obtain ⟨d, more, rfl⟩ := charConst_clean clean
  rw [charConst_escaped]
  have value : (codePoint d).toInt = d.toNat := Printable.lexeme_value (.charConst d)
  simp only [Lexeme.kind, Lexeme.value, value]
  exact .charConst d

private theorem charConst_longest (atFront : other <+: '\'' :: rest)
    (isLexeme : IsLexeme other kind value) :
    other.length ≤ (charConst rest).text.length := by
  obtain ⟨more, rfl⟩ := isLexeme.exists_cons atFront
  have shape := isLexeme.shape
  rw [if_neg (by decide), if_neg (by decide), if_pos rfl] at shape
  obtain ⟨d, same, _⟩ := shape
  obtain ⟨back, whole⟩ := atFront
  have written : rest = Printable.escaped d ++ '\'' :: back := by
    rw [same] at whole
    simpa [quoted] using (cons.inj whole).2.symm
  rw [written, charConst_escaped, same]
  exact Nat.le_refl _

private theorem mark_longest {m : Mark} {n : Nat} (noWord : ¬ startsWord c = true)
    (noDigit : ¬ c.isDigit = true) (noQuote : c ≠ '\'') (found : mark? (c :: rest) = some (m, n))
    (atFront : other <+: c :: rest) (isLexeme : IsLexeme other kind value) :
    other.length ≤ ((c :: rest).take n).length := by
  obtain ⟨more, rfl⟩ := isLexeme.exists_cons atFront
  have shape := isLexeme.shape
  rw [if_neg noWord, if_neg noDigit, if_neg noQuote] at shape
  obtain ⟨m', same, _⟩ := shape
  rw [same] at atFront ⊢
  obtain ⟨_, _, found', longer⟩ := le_mark? atFront
  cases found.symm.trans found'
  rwa [mark?_spelling found, ← mark?_length found]

/-- What is read without a problem is the longest lexeme at the front of the text. -/
theorem ofText_longest (clean : (ofText c rest).problems = []) :
    IsLongest (ofText c rest).text (c :: rest) (ofText c rest).lexeme.kind
      (ofText c rest).lexeme.value.toInt := by
  have atFront : (ofText c rest).text <+: c :: rest := ⟨_, (ofText_splits c rest).append⟩
  have both : IsLexeme (ofText c rest).text (ofText c rest).lexeme.kind
        (ofText c rest).lexeme.value.toInt ∧
      ∀ other kind value, other <+: c :: rest → IsLexeme other kind value →
        other.length ≤ (ofText c rest).text.length := by
    clear atFront
    unfold ofText at clean ⊢
    by_cases letter : startsWord c = true
    · simp only [if_pos letter]
      exact ⟨word_isLexeme letter, fun _ _ _ => word_longest letter⟩
    by_cases digit : c.isDigit = true
    · simp only [if_neg letter, if_pos digit] at clean ⊢
      exact ⟨number_isLexeme digit clean, fun _ _ _ => number_longest letter digit⟩
    by_cases quote : c = '\''
    · subst quote
      simp only [if_neg letter, if_neg digit, if_pos] at clean ⊢
      exact ⟨charConst_isLexeme clean, fun _ _ _ => charConst_longest⟩
    simp only [if_neg letter, if_neg digit, if_neg quote] at clean ⊢
    cases found : mark? (c :: rest) with
    | none => simp [found] at clean
    | some mark =>
      constructor
      · simp only [mark?_spelling found]
        exact .mark mark.1
      · exact fun _ _ _ => mark_longest letter digit quote found
  exact ⟨atFront, both.1, both.2, fun _ _ => both.1.unique⟩

private theorem ofText_digits {digits more : List Char} (written : c :: rest = digits ++ more)
    (nonempty : digits ≠ []) (all : ∀ d ∈ digits, d.isDigit = true)
    (ends : ∀ d, more.head? = some d → d.isDigit = false) :
    ofText c rest =
      if decimalValue digits < 0x80000000 then
        { text := digits, lexeme := .number (Int32.ofNat (decimalValue digits)), rest := more }
      else
        { text := digits, lexeme := .number 0, rest := more,
          problems := [.numberTooBig (String.ofList digits)] } := by
  have digit : c.isDigit = true := by
    cases digits with
    | nil => exact absurd rfl nonempty
    | cons d digits =>
      obtain ⟨rfl, _⟩ := cons.inj written
      exact all c mem_cons_self
  have noWord : ¬ startsWord c = true := by
    intro starts
    have := ascii_of_startsWord starts
    have := ascii_of_isDigit digit
    omega
  rw [ofText, if_neg noWord, if_pos digit, written]
  exact number_eq all ends

end Reading

/-! ## Tokens of a source -/

/-- A token that is not the end of the source comes from the lexeme at its place, and what is behind
the lexeme gives the tokens behind it. -/
theorem Piece.Cuts.exists_reading {text : List Char} {pieces : List Piece} (cuts : Cuts text pieces)
    (before : List Char) {n : Nat} {scanned : Scanned}
    (found : (placed (.after .start before) pieces)[n]? = some scanned)
    (notEnd : scanned.token.kind ≠ .eof) :
    ∃ front c rest, text = front ++ c :: rest ∧ Stops (c :: rest) ∧
      scanned.token = ⟨(Reading.ofText c rest).lexeme, .after .start (before ++ front)⟩ ∧
      scanned.diagnostics = (Reading.ofText c rest).problems.map
        (fun p => ⟨.after .start (before ++ front), .lexical p⟩) ∧
      (pieces.drop (n + 1)) = Piece.all (Reading.ofText c rest).rest := by
  induction cuts generalizing before n with
  | @lexeme trivia c rest pieces isTrivia stops more ih =>
    cases n with
    | zero =>
      obtain rfl : (ofPiece _ _).1 = scanned := by simpa [placed] using found
      refine ⟨trivia, c, rest, rfl, stops, ?_, ?_, more.all_eq.symm⟩
      · simp [ofPiece, Position.after_append]
      · simp [ofPiece, Position.after_append]
    | succ n =>
      have append := (Reading.ofText_splits c rest).append
      have found : (placed (.after .start
          (before ++ trivia ++ (Reading.ofText c rest).text)) pieces)[n]? = some scanned := by
        simpa [placed, ofPiece, Position.after_append] using found
      obtain ⟨front, c', rest', same, result⟩ := ih _ found
      refine ⟨trivia ++ (Reading.ofText c rest).text ++ front, c', rest', ?_, ?_⟩
      · rw [← append, same]
        simp
      · simpa [← append_assoc] using result
  | finish isTrivia =>
    cases n with
    | zero =>
      obtain rfl : (ofPiece _ _).1 = scanned := by simpa [placed] using found
      exact absurd rfl notEnd
    | succ n => simp [placed] at found
  | unclosed isTrivia unclosed =>
    cases n with
    | zero =>
      obtain rfl : (ofPiece _ _).1 = scanned := by simpa [placed] using found
      refine absurd ?_ notEnd
      rw [Token.kind, ofPiece_lexeme]
      rfl
    | succ n => simp [placed] at found

/-- Every token but the end of the source is read from the text that remains at its place, behind
blanks and comments. Without a problem, it is the longest lexeme there and has its kind and value.
Digits are always read as one number; they are a problem, and count as zero, exactly if their value
is too big. -/
theorem Scanned.all_longest {source : List Char} {n : Nat} {scanned : Scanned}
    (found : (Scanned.all source)[n]? = some scanned) (notEnd : scanned.token.kind ≠ .eof) :
    ∃ before text rest, source = before ++ (text ++ rest) ∧ Stops (text ++ rest) ∧
      scanned.token.pos = .behind before ∧
      ((Scanned.all source).drop (n + 1)).map (·.token.lexeme) =
        (Scanned.all rest).map (·.token.lexeme) ∧
      (scanned.diagnostics = [] →
        IsLongest text (text ++ rest) scanned.token.kind scanned.token.value.toInt) ∧
      ∀ digits more, text ++ rest = digits ++ more → digits ≠ [] →
        (∀ d ∈ digits, d.isDigit = true) → (∀ d, more.head? = some d → d.isDigit = false) →
        text = digits ∧ scanned.token.kind = .number ∧
          scanned.diagnostics = (if decimalValue digits < 0x80000000 then []
            else [⟨.behind before, .lexical (.numberTooBig (String.ofList digits))⟩]) ∧
          scanned.token.value.toInt =
            if decimalValue digits < 0x80000000 then decimalValue digits else 0 := by
  have cuts := Piece.cuts_all source
  rw [all_eq] at found
  obtain ⟨before, c, rest, rfl, stops, token, diagnostics, later⟩ :=
    cuts.exists_reading [] found notEnd
  rw [List.nil_append, Position.start_after] at token diagnostics
  have append := (Reading.ofText_splits c rest).append
  refine ⟨before, (Reading.ofText c rest).text, (Reading.ofText c rest).rest, by rw [append],
    by rwa [append], by rw [token], ?_, fun clean => ?_, fun digits more written nonempty all ends => ?_⟩
  · rw [all_eq, all_eq, List.map_drop, placed_lexemes, placed_lexemes, ← List.map_drop, later]
  · rw [append, Token.kind, Token.value, token]
    apply Reading.ofText_longest
    simpa [diagnostics] using clean
  · rw [append] at written
    rw [Token.kind, Token.value, token, diagnostics,
      Reading.ofText_digits written nonempty all ends]
    split
    · next small => exact ⟨rfl, rfl, rfl, Int32.toInt_ofNat_of_lt small⟩
    · exact ⟨rfl, rfl, rfl, rfl⟩

/-- A word that begins like a reserved one, a number with zeros in front, and one that is too big. -/
def runsSource : List Char := "newest 00000000000012...2147483648".toList

theorem Scanned.all_longest_runs :
    (Scanned.all runsSource)[1]? = some ⟨⟨.number 12, ⟨1, 8⟩⟩, []⟩ ∧
    (∃ before text rest, runsSource = before ++ (text ++ rest) ∧ Position.behind before = ⟨1, 8⟩ ∧
      IsLongest text (text ++ rest) .number 12) ∧
    ∃ before text rest, runsSource = before ++ (text ++ rest) ∧ Position.behind before = ⟨1, 1⟩ ∧
      IsLongest text (text ++ rest) .ident 0 := by
  have number : (Scanned.all runsSource)[1]? = some ⟨⟨.number 12, ⟨1, 8⟩⟩, []⟩ := by decide +kernel
  have word : (Scanned.all runsSource)[0]? = some ⟨⟨.ident "newest", ⟨1, 1⟩⟩, []⟩ := by
    decide +kernel
  obtain ⟨before, text, rest, whole, _, pos, _, longest, _⟩ := all_longest number (by decide)
  obtain ⟨before', text', rest', whole', _, pos', _, longest', _⟩ := all_longest word (by decide)
  exact ⟨number, ⟨before, text, rest, whole, pos.symm, longest rfl⟩,
    before', text', rest', whole', pos'.symm, longest' rfl⟩

end MicroJava

import MicroJava.Token.Lexeme

/-! # Blanks and comments

What may stand between lexemes, said without the lexer: blanks and comments in any order, where a
comment ends with the delimiter that closes it and all comments in it. `Trivia.extent` measures
exactly this. The text behind it is empty, begins with a lexeme, or is a comment that nothing closes.
-/

namespace MicroJava.Trivia

open List

/-- Whether a text begins with a delimiter of comments. -/
def startsDelimiter : List Char → Bool
  | c :: d :: _ => c == '/' && d == '*' || c == '*' && d == '/'
  | _ => false

/-- Whether a text closes a number of open comments, the outermost of them at its end. Delimiters
are found from left to right and do not overlap. -/
inductive Closes : Nat → List Char → Prop where
  | done : Closes 0 []
  | opens {depth rest} (inner : Closes (depth + 2) rest) :
      Closes (depth + 1) ('/' :: '*' :: rest)
  | closes {depth rest} (outer : Closes depth rest) : Closes (depth + 1) ('*' :: '/' :: rest)
  | other {depth c rest} (plain : startsDelimiter (c :: rest) = false)
      (more : Closes (depth + 1) rest) : Closes (depth + 1) (c :: rest)

/-- Blanks and comments in any order. -/
inductive IsTrivia : List Char → Prop where
  | nil : IsTrivia []
  | blank {c rest} (blank : Text.isBlank c = true) (more : IsTrivia rest) : IsTrivia (c :: rest)
  | comment {body rest} (closed : Closes 1 body) (more : IsTrivia rest) :
      IsTrivia ('/' :: '*' :: (body ++ rest))

/-- Whether nothing at the front of a text closes a number of open comments. -/
def NeverCloses (depth : Nat) (text : List Char) : Prop :=
  ∀ front back, text = front ++ back → ¬ Closes depth front

/-- Whether a text is a comment that is never closed. -/
inductive IsUnclosed : List Char → Prop where
  | mk {body} (never : NeverCloses 1 body) : IsUnclosed ('/' :: '*' :: body)

/-- Whether neither a blank nor a comment stands at the front of a text. -/
def Stops : List Char → Prop
  | [] => True
  | c :: rest => Text.isBlank c = false ∧ ¬ (c = '/' ∧ rest.head? = some '*')

variable {start seen depth : Nat} {c : Char} {body rest front back text trivia : List Char}

/-! ## Inside comments -/

theorem measure_opens : measure start seen (depth + 1) ('/' :: '*' :: rest) =
    measure start (seen + 2) (depth + 2) rest := rfl

theorem measure_closes : measure start seen (depth + 1) ('*' :: '/' :: rest) =
    measure start (seen + 2) depth rest := rfl

private theorem measure_other (plain : startsDelimiter (c :: rest) = false) :
    measure start seen (depth + 1) (c :: rest) = measure start (seen + 1) (depth + 1) rest := by
  conv =>
    lhs
    unfold measure
  split
  case h_4 same =>
    cases same
    cases plain
  case h_5 same =>
    cases same
    cases plain
  case h_6 depths same =>
    cases depths
    cases same
    rfl
  all_goals contradiction

private theorem startsDelimiter_eq_false (notOpening : ∀ back, c = '/' → rest = '*' :: back → False)
    (notClosing : ∀ back, c = '*' → rest = '/' :: back → False) :
    startsDelimiter (c :: rest) = false := by
  cases rest with
  | nil => rfl
  | cons next rest =>
    simp only [startsDelimiter, Bool.or_eq_false_iff, Bool.and_eq_false_imp, beq_iff_eq,
      beq_eq_false_iff_ne]
    constructor
    · rintro slash rfl
      exact notOpening rest slash rfl
    · rintro star rfl
      exact notClosing rest star rfl

theorem Closes.ne_nil (closes : Closes (depth + 1) body) : body ≠ [] := by
  cases closes <;> simp

/-- Whether a character begins a delimiter depends on the next one only. -/
theorem startsDelimiter_append (nonempty : rest ≠ []) :
    startsDelimiter (c :: (rest ++ back)) = startsDelimiter (c :: rest) := by
  cases rest with
  | nil => exact absurd rfl nonempty
  | cons next rest => rfl

/-- Behind the text that closes all open comments, only blanks and comments are passed. -/
theorem Closes.measure_append (closes : Closes depth body) :
    measure start seen depth (body ++ rest) = measure start (seen + body.length) 0 rest := by
  induction closes generalizing seen with
  | done => rfl
  | opens _ ih =>
    simp only [cons_append, measure_opens, ih, length_cons]
    congr 1
    omega
  | closes _ ih =>
    simp only [cons_append, measure_closes, ih, length_cons]
    congr 1
    omega
  | other plain more ih =>
    rw [cons_append, measure_other (by rw [startsDelimiter_append more.ne_nil, plain]), ih,
      length_cons]
    congr 1
    omega

/-- A delimiter that opens a comment inside others closes nothing. -/
theorem NeverCloses.opens (never : NeverCloses (depth + 1) ('/' :: '*' :: rest)) :
    NeverCloses (depth + 2) rest := by
  rintro front back rfl closes
  exact never ('/' :: '*' :: front) back rfl (.opens closes)

theorem NeverCloses.closes (never : NeverCloses (depth + 1) ('*' :: '/' :: rest)) :
    NeverCloses depth rest := by
  rintro front back rfl closes
  exact never ('*' :: '/' :: front) back rfl (.closes closes)

theorem NeverCloses.other (never : NeverCloses (depth + 1) (c :: rest))
    (plain : startsDelimiter (c :: rest) = false) : NeverCloses (depth + 1) rest := by
  rintro front back rfl closes
  rw [startsDelimiter_append closes.ne_nil] at plain
  exact never (c :: front) back rfl (.other plain closes)

/-- A comment that is never closed is noted where the outermost one began. -/
theorem NeverCloses.measure (never : NeverCloses depth text) :
    measure start seen depth text = ⟨start, true⟩ := by
  fun_induction Trivia.measure start seen depth text with
  | case1 => exact absurd .done (never [] _ rfl)
  | case2 => exact absurd .done (never [] _ rfl)
  | case3 => exact absurd .done (never [] _ rfl)
  | case4 => exact absurd .done (never [] _ rfl)
  | case5 start seen depth rest ih => exact ih never.opens
  | case6 start seen depth rest ih => exact ih never.closes
  | case7 start seen depth c rest notOpening notClosing ih =>
    exact ih (never.other (startsDelimiter_eq_false notOpening notClosing))
  | case8 => rfl

/-! ## Outside of comments -/

/-- Outside of all comments it does not matter where the last one began. -/
theorem measure_outside (start other : Nat) :
    measure start seen 0 text = measure other seen 0 text := by
  unfold measure
  split <;> trivial

private theorem measure_comment :
    measure start seen 0 ('/' :: '*' :: rest) = measure seen (seen + 2) 1 rest := rfl

/-- What does not begin a comment is passed if it is a blank. -/
theorem measure_first (plain : ¬ (c = '/' ∧ rest.head? = some '*')) :
    measure start seen 0 (c :: rest) =
      if Text.isBlank c then measure seen (seen + 1) 0 rest else ⟨seen, false⟩ := by
  conv =>
    lhs
    unfold measure
  split
  case h_1 same =>
    cases same
    exact absurd ⟨rfl, rfl⟩ plain
  case h_2 same =>
    cases same
    rfl
  all_goals contradiction

private theorem measure_blank (blank : Text.isBlank c = true) :
    measure start seen 0 (c :: rest) = measure start (seen + 1) 0 rest := by
  rw [measure_first, if_pos blank]
  · exact measure_outside ..
  · rintro ⟨rfl, _⟩
    cases blank

/-- Blanks and comments are passed. -/
theorem IsTrivia.measure_append (isTrivia : IsTrivia trivia) :
    measure start seen 0 (trivia ++ rest) = measure start (seen + trivia.length) 0 rest := by
  induction isTrivia generalizing seen with
  | nil => rfl
  | blank blank _ ih =>
    rw [cons_append, measure_blank blank, ih, length_cons]
    congr 1
    omega
  | comment closed _ ih =>
    rw [cons_append, cons_append, append_assoc, measure_comment, closed.measure_append,
      measure_outside _ start, ih]
    congr 1
    simp only [length_cons, length_append]
    omega

theorem Stops.measure (stops : Stops text) : measure start seen 0 text = ⟨seen, false⟩ := by
  cases text with
  | nil => rfl
  | cons c rest =>
    rw [measure_first stops.2, if_neg (by simp [stops.1])]

theorem IsUnclosed.measure (unclosed : IsUnclosed text) :
    measure start seen 0 text = ⟨seen, true⟩ := by
  obtain ⟨never⟩ := unclosed
  exact never.measure

/-! ## The extent of trivia -/

theorem IsTrivia.extent_stops (isTrivia : IsTrivia trivia) (stops : Stops rest) :
    extent (trivia ++ rest) = ⟨trivia.length, false⟩ := by
  rw [extent, isTrivia.measure_append, stops.measure, Nat.zero_add]

theorem IsTrivia.extent_unclosed (isTrivia : IsTrivia trivia) (unclosed : IsUnclosed rest) :
    extent (trivia ++ rest) = ⟨trivia.length, true⟩ := by
  rw [extent, isTrivia.measure_append, unclosed.measure, Nat.zero_add]

/-- Every text is trivia and then its end, a lexeme, or a comment that is never closed. -/
theorem exists_trivia (text : List Char) : ∃ trivia rest, text = trivia ++ rest ∧ IsTrivia trivia ∧
    (Stops rest ∨ IsUnclosed rest) := by
  induction length : text.length using Nat.strongRecOn generalizing text with
  | ind length ih =>
    subst length
    cases text with
    | nil => exact ⟨[], [], rfl, .nil, .inl trivial⟩
    | cons c rest =>
      by_cases blank : Text.isBlank c = true
      · obtain ⟨trivia, back, rfl, isTrivia, ends⟩ := ih rest.length (by simp) rest rfl
        exact ⟨c :: trivia, back, rfl, .blank blank isTrivia, ends⟩
      by_cases comment : c = '/' ∧ rest.head? = some '*'
      · obtain ⟨rfl, star⟩ := comment
        obtain ⟨body, rfl⟩ := head?_eq_some_iff.mp star
        by_cases closed : ∃ front back, body = front ++ back ∧ Closes 1 front
        · obtain ⟨front, rest, rfl, closes⟩ := closed
          obtain ⟨trivia, back, rfl, isTrivia, ends⟩ := ih rest.length (by simp; omega) rest rfl
          exact ⟨_, back, by simp, .comment closes isTrivia, ends⟩
        · refine ⟨[], _, rfl, .nil, .inr ⟨?_⟩⟩
          intro front back same closes
          exact closed ⟨front, back, same, closes⟩
      · exact ⟨[], c :: rest, rfl, .nil, .inl ⟨by simpa using blank, comment⟩⟩

end MicroJava.Trivia

import MicroJava.Proofs.Progress.Basic
import MicroJava.Proofs.Syntax.Phrase

/-! # Actions that read a phrase

An action parses a phrase if it consumes exactly the lexemes of the phrase wherever they come next,
unless something that has nothing to do with the grammar was reported on the way. After such a
report nothing more is asked of the action: the first diagnostic is fixed.
-/

namespace MicroJava

open List

/-! ## The first diagnostic -/

namespace Reporter

/-- Whether the first thing that was recorded is no problem of the grammar. -/
def Excused (r : Reporter) : Prop :=
  ∃ d more, r.recorded.toList = d :: more ∧ d.problem.isGrammar = false

/-- Whether nothing was recorded so far and the next report will be. -/
def Ready (r : Reporter) : Prop := r.recorded = #[] ∧ r.spacing ≤ r.distance

/-- Whether one reporter leads to another one without a first diagnostic about the grammar. -/
structure Excuses (r r' : Reporter) : Prop where
  continues : r.Continues r'
  first : r.Ready → r'.Excused ∨ r'.Ready

variable {r r1 r2 : Reporter}

theorem Excused.continues (excused : r.Excused) (continues : r.Continues r1) : r1.Excused := by
  obtain ⟨d, more, recorded, mild⟩ := excused
  obtain ⟨later, same⟩ := continues
  refine ⟨d, more ++ later, ?_, mild⟩
  rw [← same, recorded, cons_append]

theorem Excuses.refl (r : Reporter) : r.Excuses r := ⟨.refl r, .inr⟩

theorem Excuses.trans (first : r.Excuses r1) (second : r1.Excuses r2) : r.Excuses r2 := by
  refine ⟨first.continues.trans second.continues, fun ready => ?_⟩
  rcases first.first ready with excused | ready1
  · exact .inl (excused.continues second.continues)
  · exact second.first ready1

private theorem excuses_report (r : Reporter) {problem : Problem}
    (mild : problem.isGrammar = false) :
    r.Excuses (r.report problem) := by
  refine ⟨r.continues_report problem, fun ready => .inl ?_⟩
  refine ⟨⟨r.pos, problem⟩, [], ?_, mild⟩
  simp [report, ready.1, ready.2]

instance : Permits Excuses where
  refl := .refl
  trans := .trans
  report r _ mild := r.excuses_report mild

private theorem excuses_records {problems : List Diagnostic}
    (mild : ∀ d ∈ problems, d.problem.isGrammar = false) (r : Reporter) :
    r.Excuses (problems.foldl record r) := by
  refine ⟨r.continues_records problems, fun ready => ?_⟩
  cases problems with
  | nil => exact .inr ready
  | cons d problems =>
    have first : (r.record d).Excused :=
      ⟨d, [], by simp [record, ready.1], mild d mem_cons_self⟩
    exact .inl (first.continues (continues_records problems _))

private theorem excuses_advance (r : Reporter) (pos : Position) : r.Excuses (r.advance pos) :=
  ⟨.refl r, fun ready => .inr ⟨ready.1, Nat.le_succ_of_le ready.2⟩⟩

end Reporter

/-- Whether nothing but a given text lies ahead, and nothing was reported yet. -/
structure Compiler.Faces (s : Compiler) (text : List Lexeme) : Prop where
  ready : s.reporter.Ready
  upcoming : s.tokens.upcoming = text
  lexical : ∀ next ∈ s.tokens.rest, ∀ d ∈ next.diagnostics, d.problem.isGrammar = false

section

variable {s s' : Compiler} {l : Lexeme} {text : List Lexeme}

theorem Compiler.Faces.lexeme (faces : s.Faces (l :: text)) : s.tokens.peek.lexeme = l :=
  (cons.inj faces.upcoming).1

theorem Compiler.Faces.kind (faces : s.Faces (l :: text)) : s.tokens.peek.kind = l.kind :=
  congrArg Lexeme.kind faces.lexeme

/-- What lies ahead after a step that leaves the tokens alone. -/
theorem Compiler.Faces.still (faces : s.Faces text) (tokens : s'.tokens = s.tokens)
    (ready : s'.reporter.Ready) : s'.Faces text := by
  refine ⟨ready, ?_, ?_⟩
  · rw [tokens]
    exact faces.upcoming
  · rw [tokens]
    exact faces.lexical

end

namespace Compile

variable {α β : Type} {m : Compile α} {f : α → Compile β} {s : Compiler} {a : α}
  {text middle rest rest' : List Lexeme}

/-! ## Actions that read a phrase -/

/-- Whether an action that faces a text leaves exactly the rest of it, unless the first diagnostic is
not about the grammar. Whatever it faces, what was recorded stays recorded. -/
def Parses (m : Compile α) (s : Compiler) (text rest : List Lexeme) : Prop :=
  s.tokens.WellFormed → ∀ a s', m s = .ok (a, s') →
    s'.tokens.WellFormed ∧ s.reporter.Continues s'.reporter ∧
      (s.Faces text → s'.reporter.Excused ∨ s'.Faces rest)

theorem Parses.bind (first : Parses m s text middle)
    (second : ∀ a s', Parses (f a) s' middle rest) : Parses (m >>= f) s text rest := by
  intro wellFormed b s' run
  obtain ⟨a, s1, run1, run2⟩ := run_bind run
  obtain ⟨wellFormed1, continues1, parsed1⟩ := first wellFormed a s1 run1
  obtain ⟨wellFormed2, continues2, parsed2⟩ := second a s1 wellFormed1 b s' run2
  refine ⟨wellFormed2, continues1.trans continues2, fun faces => ?_⟩
  rcases parsed1 faces with excused | faces1
  · exact .inl (excused.continues continues2)
  · exact parsed2 faces1

/-- An action that does not face a text. -/
theorem Reads.parses (reads : Reads m s False) (differs : ¬ s.Faces text) :
    Parses m s text rest := by
  intro wellFormed a s' run
  obtain ⟨consumes, keeps, _⟩ := reads wellFormed a s' run
  exact ⟨consumes.wellFormed wellFormed, keeps.recorded, fun faces => absurd faces differs⟩

/-- An action that faces a text may be known to face another one. -/
theorem Parses.ofSame (other : List Lexeme) (same : s.Faces text → text = other)
    (parses : Parses m s other rest) : Parses m s text rest := by
  intro wellFormed a s' run
  obtain ⟨wellFormed1, continues, parsed⟩ := parses wellFormed a s' run
  exact ⟨wellFormed1, continues, fun faces => parsed (same faces ▸ faces)⟩

/-- An action may be looked at only where it faces its text. -/
theorem Reads.facing (reads : Reads m s False) (parses : s.Faces text → Parses m s text rest) :
    Parses m s text rest := by
  by_cases faces : s.Faces text
  · exact parses faces
  · exact reads.parses faces

theorem Parses.facing [steady : Steady m] (parses : s.Faces text → Parses m s text rest) :
    Parses m s text rest := (steady.reads s).facing parses

/-- What an action does that leaves the tokens alone and says nothing about the grammar. -/
theorem Parses.still [still : Still Reporter.Excuses m] : Parses m s text text := by
  intro wellFormed a s' run
  obtain ⟨same, _, excuses, _⟩ := still.run _ _ _ run
  refine ⟨by rwa [same], excuses.continues, fun faces => ?_⟩
  exact (excuses.first faces.ready).imp_right (faces.still same)

theorem Parses.lookahead {f : TokenKind → Compile β}
    (next : Parses (f s.tokens.peek.kind) s text rest) :
    Parses (Compile.lookahead >>= f) s text rest := next

/-- The lexer finds no problems of the grammar. -/
theorem scan_excuses {u : Unit} {s' : Compiler} (faces : s.Faces text)
    (run : scan s = .ok (u, s')) : s.reporter.Excuses s'.reporter := by
  have pending : ∀ d ∈ s.tokens.pending, d.problem.isGrammar = false := by
    unfold TokenStream.pending
    split
    · simp
    · next next _ isNext => exact faces.lexical next (by simp [isNext])
  cases run
  exact (Reporter.excuses_records pending s.reporter).trans (Reporter.excuses_advance _ _)

theorem scan_parses {l : Lexeme} (more : l ≠ .eof) : Parses scan s (l :: rest) rest := by
  intro wellFormed u s' run
  have excuses (faces : s.Faces (l :: rest)) := scan_excuses faces run
  cases run
  refine ⟨wellFormed.advance, s.reporter.continues_records s.tokens.pending, fun faces => ?_⟩
  refine ((excuses faces).first faces.ready).imp_right fun ready => ⟨ready, ?_, ?_⟩
  · have consumed := wellFormed.upcoming_eq (by rwa [faces.lexeme])
    rw [faces.upcoming] at consumed
    exact (cons.inj consumed).2.symm
  · intro next member
    apply faces.lexical
    change next ∈ s.tokens.advance.rest at member
    unfold TokenStream.advance at member
    split at member
    · exact member
    · next isNext =>
      rw [isNext]
      exact mem_cons_of_mem _ member

theorem expect_parses {kind : TokenKind} {l : Lexeme} (more : kind ≠ .eof) (same : l.kind = kind) :
    Parses (expect kind) s (l :: rest) rest := by
  refine (expect_reads more False.elim).facing fun faces => .lookahead ?_
  rw [faces.kind, if_pos same]
  apply scan_parses
  rintro rfl
  exact more same.symm

/-! ## Parsing step by step -/

/-- Whether an action parses the beginning of a text wherever it faces the text. The action and the
text tell what is left. -/
class Parsing (m : Compile α) (text : List Lexeme) (rest : outParam (List Lexeme)) : Prop where
  parses : ∀ s, Parses m s text rest

/-- Whether a text does not continue the phrase before it. -/
class Follows (continues : Lexeme → Bool) (rest : List Lexeme) : Prop where
  ends : Syntax.Ends continues rest

instance {continues : Lexeme → Bool} {l : Lexeme} {more : List Lexeme}
    [follows : Follows continues (l :: (more ++ rest))] : Follows continues (l :: more ++ rest) := follows

namespace Parsing

instance (priority := low) still [Still Reporter.Excuses m] : Parsing m text text :=
  ⟨fun _ => .still⟩

instance bind [first : Parsing m text middle] [second : ∀ a, Parsing (f a) middle rest] :
    Parsing (m >>= f) text rest := ⟨fun s => (first.parses s).bind fun a => (second a).parses⟩

/-- An action after one that is parsed by itself. -/
theorem step [Parsing m text middle] (second : ∀ a, Parsing (f a) middle rest) :
    Parsing (m >>= f) text rest := bind

instance ite {condition : Prop} [Decidable condition] {n : Compile α} [first : Parsing m text rest]
    [second : Parsing n text rest] : Parsing (if condition then m else n) text rest := by
  split
  · exact first
  · exact second

instance previous : Parsing Compile.previous text text where
  parses _ wellFormed _ _ run := by
    cases run
    exact ⟨wellFormed, .refl _, .inr⟩

instance get : Parsing (MonadState.get : Compile Compiler) text text where
  parses _ wellFormed _ _ run := by
    cases run
    exact ⟨wellFormed, .refl _, .inr⟩

instance scanMark {mark : Mark} : Parsing scan (.mark mark :: rest) rest :=
  ⟨fun _ => scan_parses (by simp)⟩

instance scanKeyword {keyword : Keyword} : Parsing scan (.keyword keyword :: rest) rest :=
  ⟨fun _ => scan_parses (by simp)⟩

instance scanName {name : String} : Parsing scan (.ident name :: rest) rest :=
  ⟨fun _ => scan_parses (by simp)⟩

instance scanNumber {value : Int32} : Parsing scan (.number value :: rest) rest :=
  ⟨fun _ => scan_parses (by simp)⟩

instance scanCharacter {value : Int32} : Parsing scan (.charConst value :: rest) rest :=
  ⟨fun _ => scan_parses (by simp)⟩

instance expectMark {mark : Mark} : Parsing (expect (.mark mark)) (.mark mark :: rest) rest :=
  ⟨fun _ => expect_parses (by simp) rfl⟩

instance expectKeyword {keyword : Keyword} :
    Parsing (expect (.keyword keyword)) (.keyword keyword :: rest) rest :=
  ⟨fun _ => expect_parses (by simp) rfl⟩

instance expectNumber {value : Int32} : Parsing (expect .number) (.number value :: rest) rest :=
  ⟨fun _ => expect_parses (by simp) rfl⟩

instance expectName {name : String} : Parsing Compile.expectName (.ident name :: rest) rest := by
  have : Parsing (expect .ident) (.ident name :: rest) rest := ⟨fun _ => expect_parses (by simp) rfl⟩
  unfold Compile.expectName
  infer_instance

instance consAppend {l : Lexeme} {more : List Lexeme}
    [parsing : Parsing m (l :: (more ++ text)) rest] : Parsing m (l :: more ++ text) rest := parsing

instance nilAppend [parsing : Parsing m text rest] : Parsing m ([] ++ text) rest := parsing

instance appendAssoc {front more : List Lexeme} [parsing : Parsing m (front ++ (more ++ text)) rest] :
    Parsing m (front ++ more ++ text) rest := by
  rw [append_assoc]
  exact parsing

/-- A phrase that may be missing. The next token tells whether it is there. -/
theorem optional {ι : Type} [Inhabited ι] {test : TokenKind → Prop} [DecidablePred test]
    {m n : Compile β} (lexemes : ι → List Lexeme) (phrase : Option ι)
    (starts : ∀ i, ∃ l more, lexemes i = l :: more ∧ test l.kind)
    (stops : phrase = none → ∀ l ∈ rest.head?, ¬ test l.kind)
    (present : Parsing m (lexemes (phrase.getD default) ++ rest) rest')
    (absent : Parsing n rest rest') :
    Parsing (Compile.lookahead >>= fun kind => if test kind then m else n)
      (phrase.elim [] lexemes ++ rest) rest' := by
  refine ⟨fun s => .lookahead ?_⟩
  cases phrase with
  | none =>
    split
    · next found =>
      refine .ofSame (lexemes default ++ rest) (fun faces => ?_) (present.parses s)
      refine absurd found (stops rfl s.tokens.peek.lexeme ?_)
      rw [show rest = s.tokens.upcoming from faces.upcoming.symm]
      rfl
    · exact absent.parses s
  | some i =>
    split
    · exact present.parses s
    · next missing =>
      refine .ofSame rest (fun faces => absurd ?_ missing) (absent.parses s)
      obtain ⟨l, more, begins, found⟩ := starts i
      rw [Option.elim_some, begins] at faces
      rw [faces.kind]
      exact found

end Parsing

theorem deeper_parses {action tooDeep : Compile α} (otherwise : Parses tooDeep s text rest)
    (inside : Parses action { s with depth := s.depth + 1 } text rest) :
    Parses (deeper action tooDeep) s text rest := by
  change Parses (if _ then _ else _) s text rest
  split
  · exact otherwise
  · intro wellFormed b s' run
    obtain ⟨_, _, ⟨rfl, rfl⟩, run⟩ := run_bind run
    obtain ⟨a, s1, run1, run⟩ := run_bind run
    obtain ⟨_, _, ⟨rfl, rfl⟩, run⟩ := run_bind run
    obtain ⟨wellFormed1, continues, parsed⟩ := inside wellFormed a s1 run1
    cases run
    refine ⟨wellFormed1, continues, fun faces => ?_⟩
    exact (parsed ⟨faces.ready, faces.upcoming, faces.lexical⟩).imp_right fun after =>
      ⟨after.ready, after.upcoming, after.lexical⟩

/-- After something was reported that is not about the grammar, tokens may be skipped. -/
theorem report_parses {f : Unit → Compile β} {problem : Problem} (mild : problem.isGrammar = false)
    [steady : ∀ u, Steady (f u)] : Parses (report problem >>= f) s text rest := by
  intro wellFormed b s' run
  obtain ⟨u, s1, ⟨rfl, rfl⟩, run2⟩ := run_bind run
  obtain ⟨consumes, keeps, _⟩ := (steady ()).reads { s with reporter := s.reporter.report problem }
    wellFormed b s' run2
  have first := s.reporter.excuses_report mild
  refine ⟨consumes.wellFormed wellFormed, first.continues.trans keeps.recorded, fun faces => .inl ?_⟩
  have excused : (s.reporter.report problem).Excused := by
    refine ⟨⟨s.reporter.pos, problem⟩, [], ?_, mild⟩
    simp [Reporter.report, faces.ready.1, faces.ready.2]
  exact excused.continues keeps.recorded

/-! ## Repetition -/

/-- A repetition parses phrases one after the other, each of which begins with a token that it goes
on at. -/
theorem repeatWhile_parses {ι : Type} {test : TokenKind → Bool} (body : α → Compile α)
    (inner : Lexeme → Bool) {lexemes : ι → List Lexeme} (ends : test .eof = false)
    (step : ∀ a s, test s.tokens.peek.kind = true → Reads (body a) s True) {items : List ι}
    (starts : ∀ i ∈ items, ∃ l more, lexemes i = l :: more ∧ test l.kind = true ∧ inner l = false)
    (each : ∀ i ∈ items, ∀ a s rest, test s.tokens.peek.kind = true → Syntax.Ends inner rest →
      Parses (body a) s (lexemes i ++ rest) rest) (stops : Syntax.Ends (fun l => test l.kind) rest)
    (last : Syntax.Ends inner rest) :
    Parses (repeatWhile test body a) s (items.flatMap lexemes ++ rest) rest := by
  have reads (a : α) (s : Compiler) : Reads (repeatWhile test body a) s False :=
    repeatWhile_reads ends step
  induction items generalizing a s with
  | nil =>
    refine (reads a s).facing fun faces wellFormed b s' run => ?_
    have stop : test s.tokens.peek.kind = false := by
      apply stops s.tokens.peek.lexeme
      rw [show rest = s.tokens.upcoming from faces.upcoming.symm]
      rfl
    rw [repeatWhile_eq ends step wellFormed, stop] at run
    cases run
    exact ⟨wellFormed, .refl _, .inr⟩
  | cons i items ih =>
    obtain ⟨head, tail⟩ := forall_mem_cons.mp starts
    obtain ⟨l, more, begins, tests, _⟩ := head
    obtain ⟨first, others⟩ := forall_mem_cons.mp each
    have follows : Syntax.Ends inner (items.flatMap lexemes ++ rest) := by
      cases items with
      | nil => exact last
      | cons j items =>
        obtain ⟨l, more, begins, _, stops⟩ := tail j mem_cons_self
        simpa [begins] using stops
    simp only [flatMap_cons, append_assoc]
    refine (reads a s).facing fun faces => ?_
    have goes : test s.tokens.peek.kind = true := by
      rw [begins] at faces
      rw [faces.kind]
      exact tests
    intro wellFormed b s' run
    rw [repeatWhile_eq ends step wellFormed, goes, if_pos rfl] at run
    exact ((first a s _ goes follows).bind fun a s' => ih tail others) wellFormed b s' run

theorem kind_beq_mark (l : Lexeme) (m : Mark) : (l.kind == .mark m) = (l == .mark m) := by
  rw [Bool.eq_iff_iff]
  cases l <;> simp [Lexeme.kind]

theorem commaSeparated_parses {ι : Type} {item : α → Compile α} (lexemes : ι → List Lexeme)
    (inner : Lexeme → Bool) [∀ a, Steady (item a)] (comma : inner (.mark .comma) = false)
    {first : ι} {others : List ι}
    (each : ∀ i ∈ first :: others, ∀ a s rest, Syntax.Ends inner rest →
      Parses (item a) s (lexemes i ++ rest) rest) (stops : Syntax.Ends (· == .mark .comma) rest)
    (last : Syntax.Ends inner rest) :
    Parses (commaSeparated item a) s
      (lexemes first ++ ((others.flatMap fun i => .mark .comma :: lexemes i) ++ rest)) rest := by
  obtain ⟨head, tail⟩ := forall_mem_cons.mp each
  have follows : Syntax.Ends inner ((others.flatMap fun i => .mark .comma :: lexemes i) ++ rest) := by
    cases others with
    | nil => exact last
    | cons i others => simpa using comma
  refine (head a s _ follows).bind fun a s1 => ?_
  refine repeatWhile_parses _ inner rfl (fun a s more => ?_)
    (fun i _ => ⟨_, _, rfl, rfl, comma⟩) (fun i member a s rest _ ends => ?_) ?_ last
  · simp only [beq_iff_eq] at more
    exact (scan_reads (by simp [more])).andThen
  · exact (scan_parses (by simp)).bind fun _ s2 => tail i member a s2 rest ends
  · simpa only [kind_beq_mark] using stops

end Compile

end MicroJava

import MicroJava.Proofs.Run.State
import MicroJava.Proofs.Translation.Statement

/-! # What the steps of a compilation do

`Compile.Ensures` says that an action succeeds and what holds afterwards. `Compiler.Does` is the
effect of a step that leaves the symbol table alone: the items it adds, and, if nothing was reported,
the lexemes it consumes and what it has checked.
-/

namespace MicroJava

open Reporter Compile

namespace Compiler

/-- The effect of a step that leaves the symbol table alone. -/
structure Does (s s' : Compiler) (items : List Item) (lexemes : List Lexeme) (checked : Prop) : Prop
    extends Extends s s' items where
  table : s'.table = s.table
  accepted : s'.Clean → s.Clean ∧ s.tokens.upcoming = lexemes ++ s'.tokens.upcoming ∧ checked

variable {s s1 s2 : Compiler} {front back : List Item} {read1 read2 : List Lexeme} {p q : Prop}

theorem Does.refl (valid : s.Valid) (holds : p) : s.Does s [] [] p where
  toExtends := .refl valid
  table := rfl
  accepted clean := ⟨clean, rfl, holds⟩

theorem Does.trans (first : s.Does s1 front read1 p) (second : s1.Does s2 back read2 q) :
    s.Does s2 (front ++ back) (read1 ++ read2) (p ∧ q) where
  toExtends := first.toExtends.trans second.toExtends
  table := second.table.trans first.table
  accepted clean := by
    obtain ⟨clean, reads2, q⟩ := second.accepted clean
    obtain ⟨clean, reads1, p⟩ := first.accepted clean
    exact ⟨clean, by rw [reads1, reads2, List.append_assoc], p, q⟩

/-- The same effect in other words. -/
theorem Does.as (does : s.Does s1 front read1 p) (items : front = back) (lexemes : read1 = read2)
    (weaker : p → q) : s.Does s1 back read2 q where
  toExtends := items ▸ does.toExtends
  table := does.table
  accepted clean := by
    obtain ⟨clean, reads, p⟩ := does.accepted clean
    exact ⟨clean, lexemes ▸ reads, weaker p⟩

theorem Does.imp (does : s.Does s1 front read1 p) (weaker : p → q) : s.Does s1 front read1 q :=
  does.as rfl rfl weaker

/-- A step that consumes nothing keeps the lookahead, unless it met a problem. -/
theorem Does.peek_kind (does : s.Does s1 front [] p) (clean : s1.Clean) :
    s1.tokens.peek.kind = s.tokens.peek.kind := by
  obtain ⟨_, reads, _⟩ := does.accepted clean
  simp only [TokenStream.upcoming, List.nil_append, List.cons.injEq] at reads
  simp only [Token.kind, reads.1]

/-- After a problem nothing is said about lexemes and checks. -/
theorem Does.ofProblem (does : s.Does s1 front read1 p) (problem : ¬ s1.Clean) (read : List Lexeme)
    (q : Prop) : s.Does s1 front read q where
  toExtends := does.toExtends
  table := does.table
  accepted clean := absurd clean problem

end Compiler

open Compiler

namespace Compile

variable {α β : Type} {m : Compile α} {f : α → Compile β} {s : Compiler} {a : α} {lexeme : Lexeme}
  {s' : Compiler} {r : Reporter} {kind : TokenKind} {items : List Item}

/-- Whether an action succeeds in a state, and its result and the state afterwards satisfy `post`. -/
def Ensures (m : Compile α) (s : Compiler) (post : α → Compiler → Prop) : Prop :=
  ∃ a s', m s = .ok (a, s') ∧ post a s'

theorem Ensures.pure {post : α → Compiler → Prop} (holds : post a s) :
    Ensures (Pure.pure a) s post := ⟨a, s, rfl, holds⟩

theorem Ensures.bind {r : α → Compiler → Prop} {post : β → Compiler → Prop} (first : Ensures m s r)
    (second : ∀ a s', r a s' → Ensures (f a) s' post) : Ensures (m >>= f) s post := by
  obtain ⟨a, s', run, holds⟩ := first
  obtain ⟨b, s'', run', holds'⟩ := second a s' holds
  refine ⟨b, s'', ?_, holds'⟩
  change (m s).bind (fun p => f p.1 p.2) = .ok (b, s'')
  rw [run]
  exact run'

theorem Ensures.mono {r post : α → Compiler → Prop} (first : Ensures m s r)
    (weaker : ∀ a s', r a s' → post a s') : Ensures m s post := by
  obtain ⟨a, s', run, holds⟩ := first
  exact ⟨a, s', run, weaker a s' holds⟩

/-- An action with a known outcome. -/
theorem Ensures.ofRun {post : β → Compiler → Prop} (run : m s = .ok (a, s'))
    (rest : Ensures (f a) s' post) : Ensures (m >>= f) s post :=
  Ensures.bind (r := fun b t => b = a ∧ t = s') ⟨a, s', run, rfl, rfl⟩
    fun _ _ ⟨same, same'⟩ => same ▸ same' ▸ rest

/-- The result of a run satisfies what the action ensures. -/
theorem Ensures.of_run {post : α → Compiler → Prop} (ensures : Ensures m s post)
    (run : m s = .ok (a, s')) : post a s' := by
  obtain ⟨b, s'', run', holds⟩ := ensures
  rw [run] at run'
  cases run'
  exact holds

/-- What an action ensures, together with its run. -/
theorem Ensures.withRun {post : α → Compiler → Prop} (ensures : Ensures m s post) :
    Ensures m s fun a s' => post a s' ∧ m s = .ok (a, s') := by
  obtain ⟨a, s', run, holds⟩ := ensures
  exact ⟨a, s', run, holds, run⟩

/-! ## Looking at the state -/

section Look

variable {post : β → Compiler → Prop}

theorem Ensures.lookahead {f : TokenKind → Compile β} (rest : Ensures (f s.tokens.peek.kind) s post) :
    Ensures (lookahead >>= f) s post := .ofRun rfl rest

theorem Ensures.previous {f : Token → Compile β} (rest : Ensures (f s.tokens.prev) s post) :
    Ensures (previous >>= f) s post := .ofRun rfl rest

theorem Ensures.get {f : Compiler → Compile β} (rest : Ensures (f s) s post) :
    Ensures (MonadState.get >>= f) s post := .ofRun rfl rest

theorem Ensures.entityOf {f : Entity → Compile β} {id : EntityId}
    (inside : s.table.contains id = true) (rest : Ensures (f (s.table.entity id)) s post) :
    Ensures (entityOf id >>= f) s post := by
  refine .ofRun ?_ rest
  change (if s.table.contains id = true then Pure.pure (s.table.entity id)
    else throw (.unknownEntity id.index) : Compile Entity) s = _
  rw [if_pos inside]
  rfl

theorem Ensures.requireType {f : Unit → Compile β} {a : TypeId}
    (inside : s.table.types.contains a = true) (rest : Ensures (f ()) s post) :
    Ensures (requireType a >>= f) s post := by
  refine .ofRun ?_ rest
  change (if s.table.types.contains a = true then Pure.pure ()
    else throw (.unknownType a.index) : Compile Unit) s = _
  rw [if_pos inside]
  rfl

theorem Ensures.askType {γ : Type} {f : γ → Compile β} {a : TypeId}
    {question : TypeTable → TypeId → γ} (inside : s.table.types.contains a = true)
    (rest : Ensures (f (question s.table.types a)) s post) :
    Ensures (askType a question >>= f) s post := by
  refine .bind (r := fun b t => b = question s.table.types a ∧ t = s) ?_ ?_
  · exact .requireType inside ⟨_, _, rfl, rfl, rfl⟩
  · rintro b t ⟨rfl, rfl⟩
    exact rest

section

variable {f : Bool → Compile β} {a b : TypeId} (left : s.table.types.contains a = true)
  (right : s.table.types.contains b = true)

include left right

theorem askTypes_ensures {question : TypeTable → TypeId → TypeId → Bool}
    (rest : Ensures (f (question s.table.types a b)) s post) :
    Ensures ((do requireType a; askType b fun types b => question types a b) >>= f) s post := by
  refine .bind (r := fun c t => c = question s.table.types a b ∧ t = s) ?_ ?_
  · exact .requireType left (.requireType right ⟨_, _, rfl, rfl, rfl⟩)
  · rintro c t ⟨rfl, rfl⟩
    exact rest

theorem Ensures.comparable (rest : Ensures (f (s.table.types.comparable a b)) s post) :
    Ensures (comparable a b >>= f) s post := askTypes_ensures left right rest

theorem Ensures.assignable (rest : Ensures (f (s.table.types.assignable a b)) s post) :
    Ensures (assignable a b >>= f) s post := askTypes_ensures left right rest

end

end Look

/-! ## Tokens -/

private theorem valid_of_same (valid : s.Valid) {tokens : TokenStream} {reporter : Reporter}
    (ends : tokens.WellFormed)
    (spaced : reporter.recorded = #[] → reporter.spacing ≤ reporter.distance) :
    { s with tokens, reporter : Compiler }.Valid :=
  { valid with tokens := ends, reporter := spaced }

theorem foldl_record_recorded (problems : List Diagnostic) (r : Reporter) :
    (problems.foldl record r).recorded = r.recorded ++ problems.toArray := by
  induction problems generalizing r with
  | nil => simp
  | cons d problems ih => simp [ih, record]

theorem foldl_record_frame (problems : List Diagnostic) (r : Reporter) :
    (problems.foldl record r).spacing = r.spacing ∧
      (problems.foldl record r).distance = r.distance := by
  induction problems generalizing r with
  | nil => exact ⟨rfl, rfl⟩
  | cons d problems ih => exact ih (r.record d)

/-- Consuming a token, be it the last one or not. -/
theorem scan_ensures (valid : s.Valid) :
    Ensures scan s fun _ s' => s.Extends s' [] ∧ s'.table = s.table ∧ (s'.Clean → s.Clean) ∧
      s'.tokens = s.tokens.advance := by
  refine ⟨_, _, rfl, ⟨⟨rfl, rfl, rfl, Nat.le_refl _, rfl, rfl, ?_⟩, ?_⟩, rfl, ?_, rfl⟩
  · apply valid_of_same valid valid.tokens.advance
    intro clean
    have frame := foldl_record_frame s.tokens.pending s.reporter
    simp only [advance, foldl_record_recorded] at clean
    have := valid.reporter (Array.append_eq_empty_iff.mp clean).1
    simp only [advance, frame]
    omega
  · exact (noteSlots_nil _).symm
  · intro clean
    simp only [Clean, advance, foldl_record_recorded] at clean
    exact (Array.append_eq_empty_iff.mp clean).1

/-! ## Problems -/

/-- Whether an action leaves a problem, so that nothing it reads is accepted. -/
abbrev Spoils (m : Compile Unit) (s : Compiler) : Prop :=
  Ensures m s fun _ s' => s.Does s' [] [] False ∧ ¬ s'.Clean

theorem Spoils.andThen {first : Compile Unit} {next : Unit → Compile Unit} (spoils : Spoils first s)
    (rest : ∀ {s'}, s'.Valid → ¬ s'.Clean → Spoils (next ()) s') : Spoils (first >>= next) s := by
  refine .bind spoils ?_
  rintro _ s1 ⟨does, problem⟩
  refine (rest does.valid problem).mono ?_
  rintro _ s2 ⟨does', problem'⟩
  exact ⟨(does.trans does').ofProblem problem' _ _, problem'⟩

/-- Consuming tokens after a problem. -/
theorem scanMany_problem (valid : s.Valid) (problem : ¬ s.Clean) (count : Nat) :
    Spoils (scanMany count) s := by
  induction count generalizing s with
  | zero => exact ⟨_, _, rfl, ⟨.refl valid, rfl, fun clean => absurd clean problem⟩, problem⟩
  | succ count ih =>
    have first : Spoils scan s := by
      refine (scan_ensures valid).mono ?_
      rintro _ s1 ⟨extension, table, clean, _⟩
      have problem1 : ¬ s1.Clean := fun clean1 => problem (clean clean1)
      exact ⟨⟨extension, table, fun clean => absurd clean problem1⟩, problem1⟩
    exact first.andThen ih

/-! ## Reports -/

theorem report_recorded (spaced : r.recorded = #[] → r.spacing ≤ r.distance) (problem : Problem) :
    (r.report problem).recorded ≠ #[] := by
  unfold Reporter.report
  split
  · simp
  · next held => exact fun clean => held (spaced clean)

private theorem foldl_report_recorded (recorded : r.recorded ≠ #[]) (problems : List Problem) :
    (problems.foldl Reporter.report r).recorded ≠ #[] := by
  induction problems generalizing r with
  | nil => exact recorded
  | cons problem problems ih =>
    apply ih
    unfold Reporter.report
    split
    · simp
    · exact recorded

/-- If nothing is recorded afterwards, nothing was reported. -/
theorem foldl_report_clean (spaced : r.recorded = #[] → r.spacing ≤ r.distance)
    {problems : List Problem} (clean : (problems.foldl Reporter.report r).recorded = #[]) :
    problems = [] := by
  cases problems with
  | nil => rfl
  | cons problem problems =>
    exact absurd clean (foldl_report_recorded (report_recorded spaced problem) problems)

/-- Adding items and reporting problems. -/
theorem code_does (valid : s.Valid) (items : List Item) (closed : Items.Without .exit items)
    (problems : List Problem) :
    s.Does { s with code := s.code.assemble items,
                    reporter := problems.foldl Reporter.report s.reporter }
      items [] (problems = []) := by
  have none {reporter : Reporter} (same : reporter = problems.foldl .report s.reporter)
      (clean : reporter.recorded = #[]) : problems = [] :=
    foldl_report_clean valid.reporter (same ▸ clean)
  refine ⟨⟨⟨rfl, rfl, rfl, Nat.le_refl _, rfl, rfl, ?_⟩, ?_⟩, rfl, ?_⟩
  · refine ⟨valid.table, valid.tokens, ?_, valid.method, valid.exits, valid.code.assemble items⟩
    intro clean
    cases none rfl clean
    exact valid.reporter clean
  · rw [Items.slots_eq_nil closed, noteSlots_nil]
  · intro clean
    cases none rfl clean
    exact ⟨clean, rfl, rfl⟩

theorem reportAll_does (valid : s.Valid) (problems : List Problem) :
    Ensures (reportAll problems) s fun _ s' => s.Does s' [] [] (problems = []) :=
  ⟨_, _, rfl, code_does valid [] (.nil _) problems⟩

/-- Reporting a problem leaves a trace whether or not it is recorded itself. -/
theorem report_does (valid : s.Valid) (problem : Problem) :
    Spoils (report problem) s :=
  ⟨_, _, rfl, (code_does valid [] (.nil _) [problem]).imp (by simp),
    report_recorded valid.reporter problem⟩

theorem reportIf_run (condition : Bool) (problem : Problem) (s : Compiler) :
    ∃ reporter, reportIf condition problem s = .ok ((), { s with reporter }) := by
  cases condition <;> exact ⟨_, rfl⟩

theorem reportIf_does (valid : s.Valid) (condition : Bool) (problem : Problem) :
    Ensures (reportIf condition problem) s fun _ s' => s.Does s' [] [] (condition = false) := by
  cases condition with
  | false => exact .pure (.refl valid rfl)
  | true =>
    refine (report_does valid problem).mono ?_
    rintro _ s' ⟨does, unclean⟩
    exact does.ofProblem unclean _ _

theorem Ensures.check {f : Unit → Compile β} {post : β → Compiler → Prop} (valid : s.Valid)
    {condition : Bool} {problem : Problem}
    (rest : ∀ s', s.Does s' [] [] (condition = false) → Ensures (f ()) s' post) :
    Ensures (reportIf condition problem >>= f) s post :=
  .bind (reportIf_does valid _ _) fun _ => rest

/-! ## Going on after a problem -/

private theorem holdReports_problem (valid : s.Valid) (problem : ¬ s.Clean) :
    Spoils holdReports s := by
  refine ⟨_, _, rfl, ⟨⟨⟨rfl, rfl, rfl, Nat.le_refl _, rfl, rfl, ?_⟩, ?_⟩, rfl, ?_⟩, problem⟩
  · exact valid_of_same valid valid.tokens fun clean => absurd clean problem
  · exact (noteSlots_nil _).symm
  · exact fun clean => absurd clean problem

/-- Skipping tokens and holding back reports after a problem. -/
theorem skipUntil_problem (valid : s.Valid) (problem : ¬ s.Clean) (stop : Token → Bool) :
    Spoils (do skipUntil stop; holdReports) s :=
  Spoils.andThen (.get (scanMany_problem valid problem _)) holdReports_problem

theorem recoverStatement_problem (valid : s.Valid) (problem : ¬ s.Clean) :
    Spoils recoverStatement s := by
  refine .lookahead ?_
  split
  · exact (scanMany_problem valid problem 1).andThen fun valid problem =>
      skipUntil_problem valid problem _
  · exact skipUntil_problem valid problem _

/-! ## Nesting -/

theorem deeper_ensures {action tooDeep : Compile α} {post : α → Compiler → Prop}
    (otherwise : Ensures tooDeep s post)
    (inside : Ensures action { s with depth := s.depth + 1 } fun a s' =>
      post a { s' with depth := s'.depth - 1 }) : Ensures (deeper action tooDeep) s post := by
  refine .get ?_
  split
  · exact otherwise
  · refine .ofRun rfl (.bind inside ?_)
    intro a s' holds
    exact .ofRun rfl (.pure holds)

/-! ## Expected tokens -/

theorem lexeme_of_kind_mark {m : Mark} (kind : lexeme.kind = .mark m) : lexeme = .mark m := by
  cases lexeme <;> simp_all [Lexeme.kind]

theorem lexeme_of_kind_keyword {k : Keyword} (kind : lexeme.kind = .keyword k) :
    lexeme = .keyword k := by
  cases lexeme <;> simp_all [Lexeme.kind]

private theorem lexeme_of_kind_ident (kind : lexeme.kind = .ident) :
    lexeme = .ident lexeme.name := by
  cases lexeme <;> simp_all [Lexeme.kind, Lexeme.name]

theorem lexeme_of_kind_number (kind : lexeme.kind = .number) : lexeme = .number lexeme.value := by
  cases lexeme <;> simp_all [Lexeme.kind, Lexeme.value]

theorem lexeme_of_kind_charConst (kind : lexeme.kind = .charConst) :
    lexeme = .charConst lexeme.value := by
  cases lexeme <;> simp_all [Lexeme.kind, Lexeme.value]

/-- Consuming a token whose kind is known unless a problem was recorded. -/
theorem scan_kind (valid : s.Valid) (found : s.Clean → s.tokens.peek.kind = kind)
    (more : kind ≠ .eof) :
    Ensures scan s fun _ s' => s.Does s' [] [s'.tokens.prev.lexeme] (s'.tokens.prev.kind = kind) := by
  refine (scan_ensures valid).mono ?_
  rintro _ s' ⟨extension, table, clean, tokens⟩
  refine ⟨extension, table, fun clean' => ?_⟩
  have found := found (clean clean')
  have notEnd : s.tokens.peek.lexeme ≠ .eof := by
    intro atEnd
    apply more
    rw [← found]
    simp [Token.kind, atEnd, Lexeme.kind]
  rw [tokens, TokenStream.prev_advance]
  exact ⟨clean clean', valid.tokens.upcoming_eq notEnd, found⟩

private theorem expect_kind (valid : s.Valid) (more : kind ≠ .eof) :
    Ensures (expect kind) s fun _ s' =>
      s.Does s' [] [s'.tokens.prev.lexeme] (s'.tokens.prev.kind = kind) := by
  refine .lookahead ?_
  split
  · next found => exact scan_kind valid (fun _ => found) more
  · refine (report_does valid _).mono ?_
    rintro _ s' ⟨does, unclean⟩
    exact does.ofProblem unclean _ _

/-- The effect of consuming a token whose lexeme follows from its kind. -/
theorem does_lexeme (does : s.Does s' items [s'.tokens.prev.lexeme] (s'.tokens.prev.kind = kind))
    (same : s'.tokens.prev.kind = kind → s'.tokens.prev.lexeme = lexeme) :
    s.Does s' items [lexeme] True where
  toExtends := does.toExtends
  table := does.table
  accepted clean := by
    obtain ⟨clean, reads, found⟩ := does.accepted clean
    exact ⟨clean, by rw [reads, same found], trivial⟩

section

variable (valid : s.Valid)

include valid

theorem scan_mark {m : Mark} (found : s.Clean → s.tokens.peek.kind = .mark m) :
    Ensures scan s fun _ s' => s.Does s' [] [.mark m] True :=
  (scan_kind valid found (by simp)).mono fun _ _ does => does_lexeme does lexeme_of_kind_mark

theorem scan_keyword {k : Keyword} (found : s.Clean → s.tokens.peek.kind = .keyword k) :
    Ensures scan s fun _ s' => s.Does s' [] [.keyword k] True :=
  (scan_kind valid found (by simp)).mono fun _ _ does => does_lexeme does lexeme_of_kind_keyword

theorem expect_mark {m : Mark} :
    Ensures (expect (.mark m)) s fun _ s' => s.Does s' [] [.mark m] True :=
  (expect_kind valid (by simp)).mono fun _ _ does => does_lexeme does lexeme_of_kind_mark

theorem Ensures.expectMark {f : Unit → Compile β} {post : β → Compiler → Prop} {m : Mark}
    (rest : ∀ s', s.Does s' [] [.mark m] True → Ensures (f ()) s' post) :
    Ensures (expect (.mark m) >>= f) s post := .bind (expect_mark valid) fun _ => rest

theorem expect_keyword (k : Keyword) :
    Ensures (expect (.keyword k)) s fun _ s' => s.Does s' [] [.keyword k] True :=
  (expect_kind valid (by simp)).mono fun _ _ does => does_lexeme does lexeme_of_kind_keyword

theorem expect_number :
    Ensures (expect .number) s fun _ s' => s.Does s' [] [.number s'.tokens.prev.value] True :=
  (expect_kind valid (by simp)).mono fun _ _ does => does_lexeme does lexeme_of_kind_number

/-- The name that was consumed is not empty. -/
theorem does_name (does : s.Does s' items [s'.tokens.prev.lexeme] (s'.tokens.prev.kind = .ident)) :
    s.Does s' items [.ident s'.tokens.prev.name] (s'.tokens.prev.name ≠ "") := by
  refine ⟨does.toExtends, does.table, fun clean => ?_⟩
  obtain ⟨clean, reads, found⟩ := does.accepted clean
  rw [lexeme_of_kind_ident found] at reads
  refine ⟨clean, reads, fun unnamed => valid.tokens.named ?_⟩
  simp only [TokenStream.upcoming, List.cons_append, List.nil_append, List.cons.injEq] at reads
  rw [reads.1]
  exact congrArg Lexeme.ident unnamed

theorem expectName_does :
    Ensures expectName s fun name s' => s.Does s' [] [.ident name] (name ≠ "") := by
  refine .bind (expect_kind valid (by simp)) fun _ s1 does => ?_
  exact .previous (.pure (does_name valid does))

/-! ## Names -/

theorem resolve_does (find : SymbolTable → Reported EntityId) :
    Ensures (resolve find) s fun id s' =>
      id = (find s.table).result ∧ s.Does s' [] [] ((find s.table).problems = []) := by
  refine .get ?_
  refine .bind (reportAll_does valid _) fun _ s1 does => ?_
  exact .pure ⟨rfl, does⟩

theorem search_does (search : SymbolTable → Option EntityId) (problem : Problem)
    (inside : ∀ {id}, search s.table = some id → s.table.contains id = true) :
    Ensures (resolve fun t => match search t with
      | some id => { result := id }
      | none => { result := SymbolTable.missing, problems := [problem] }) s fun id s' =>
      s.table.contains id = true ∧ s.Does s' [] [] (search s.table = some id) := by
  refine (resolve_does valid _).mono ?_
  rintro id s' ⟨rfl, does⟩
  cases found : search s.table with
  | none =>
    simp only [found] at does
    exact ⟨valid.table.contains_missing, does.imp (by simp)⟩
  | some id =>
    simp only [found] at does
    exact ⟨inside found, does.imp (by simp)⟩

theorem find_does (name : String) :
    Ensures (find name) s fun id s' => s.table.contains id = true ∧
      s.Does s' [] [] (s.table.lookup? name = some id) :=
  search_does valid (·.lookup? name) _ valid.table.contains_lookup

theorem findField_does (name : String) (a : TypeId) :
    Ensures (resolve (·.findField name a)) s fun id s' => s.table.contains id = true ∧
      s.Does s' [] [] (s.table.search (s.table.types.fields a).reverse name = some id) :=
  search_does valid (fun t => t.search (t.types.fields a).reverse name) _ fun found =>
    valid.table.contains_field (List.mem_reverse.mp (List.mem_of_find?_eq_some found))

end

/-! ## Code -/

theorem codeReported_does (valid : s.Valid) {f : CodeBuffer → Reported CodeBuffer}
    {items : List Item} {problems : List Problem}
    (same : f s.code = { result := s.code.assemble items, problems })
    (straight : Items.Straight items) :
    Ensures (codeReported f) s fun _ s' => s.Does s' items [] (problems = []) := by
  refine ⟨_, _, rfl, ?_⟩
  simp only [same]
  exact code_does valid _ (straight.without _) problems

theorem code_ensures (valid : s.Valid) {f : CodeBuffer → CodeBuffer}
    (same : f s.code = s.code.assemble items) (straight : Items.Straight items) :
    Ensures (code f) s fun _ s' => s.Does s' items [] True := by
  refine ⟨_, _, rfl, ?_⟩
  simp only [same]
  exact (code_does valid _ (straight.without _) []).imp fun _ => trivial

theorem emit_does (valid : s.Valid) {op : Opcode} {operands : List Int}
    (proper : operands.length = op.widths.length ∧ op.isTransfer = false) :
    Ensures (emit op operands) s fun _ s' => s.Does s' [.plain op operands proper] [] True :=
  code_ensures valid rfl (by simp)

theorem loadConst_does (valid : s.Valid) (value : Int32) :
    Ensures (loadConst value) s fun _ s' => s.Does s' [.const value.toInt] [] True :=
  code_ensures valid (by simp [CodeBuffer.loadConst_eq]) (by simp)

theorem newArray_does (valid : s.Valid) (elem : TypeId) :
    Ensures (code (·.newArray elem)) s fun _ s' => s.Does s' [.newArray elem] [] True :=
  code_ensures valid (by simp [CodeBuffer.newArray_eq]) (by simp)

theorem storeElement_does (valid : s.Valid) (elem : TypeId) :
    Ensures (emit (if elem = .char then .bastore else .astore) []) s fun _ s' =>
      s.Does s' [.storeElement elem] [] True := by
  unfold Item.storeElement
  split
  · exact emit_does valid _
  · exact emit_does valid _

theorem loadValue_does (valid : s.Valid) (x : Operand) :
    Ensures (loadValue x) s fun y s' =>
      y = x.pushed ∧ s.Does s' x.loadItems [] (x.isValueless = false) := by
  refine .bind (codeReported_does valid (x.loadValue_eq s.code) (by simp))
    fun _ s1 does => ?_
  exact .pure ⟨rfl, does.imp (by simp)⟩

theorem Ensures.loadsValue {f : Operand → Compile β} {post : β → Compiler → Prop} (valid : s.Valid)
    {x : Operand} (rest : ∀ s', s.Does s' x.loadItems [] (x.isValueless = false) →
      Ensures (f x.pushed) s' post) : Ensures (loadValue x >>= f) s post := by
  refine .bind (loadValue_does valid x) ?_
  rintro _ s' ⟨rfl, loaded⟩
  exact rest s' loaded

theorem assign_does (valid : s.Valid) (x y : Operand) :
    Ensures (assign x y) s fun _ s' => s.Does s' (y.loadItems ++ x.storeItems) []
      (y.isValueless = false ∧ x.isVariable = true) := by
  refine (codeReported_does valid (x.assign_eq y s.code) (by simp)).mono fun _ s' does => ?_
  exact does.imp (by simp)

/-! ## Types -/

theorem addArray_ensures {elem : TypeId} (inside : s.table.types.contains elem = true) :
    Ensures (addArray elem) s fun type s' =>
      type = (s.table.addArray elem).1 ∧ s' = { s with table := (s.table.addArray elem).2 } :=
  Ensures.requireType inside ⟨_, _, rfl, rfl, rfl⟩

theorem addArray_extends (valid : s.Valid) {elem : TypeId}
    (inside : s.table.types.contains elem = true) :
    Ensures (addArray elem) s fun type s' => s.Extends s' [] ∧
      s'.table.types.contains type = true ∧
      type = (s.table.addArray elem).1 ∧ s'.table = (s.table.addArray elem).2 ∧
      (s'.Clean → s.Clean) ∧ s'.tokens = s.tokens := by
  refine (addArray_ensures inside).mono ?_
  rintro type s' ⟨isType, isState⟩
  subst isType isState
  refine ⟨⟨⟨rfl, rfl, rfl, ?_, rfl, rfl, ?_⟩, ?_⟩, ?_, rfl, rfl, id, rfl⟩
  · simp [SymbolTable.addArray, TypeTable.addArray, TypeTable.add, TypeTable.size]
  · exact { valid with table := valid.table.addType (by simpa using inside) rfl }
  · exact (noteSlots_nil _).symm
  · simp [SymbolTable.addArray, TypeTable.addArray, TypeTable.add, TypeTable.contains, TypeTable.size]

/-! ## Repetition -/

/-- A relation between the beginning and the end of a repetition holds if it holds of no run and can
be extended by one run at the beginning. -/
theorem repeatWhile_ensures {test : TokenKind → Bool} {body : α → Compile α}
    {i : α → Compiler → Prop} {r : α → Compiler → α → Compiler → Prop}
    (stop : ∀ a s, i a s → r a s a s)
    (step : ∀ a s, i a s → test s.tokens.peek.kind = true →
      Ensures (body a) s fun a1 s1 => i a1 s1 ∧ ∀ a2 s2, r a1 s1 a2 s2 → r a s a2 s2)
    (start : i a s) : Ensures (repeatWhile test body a) s (r a s) := by
  change ∃ a' s', repeatWhile.go test body s.tokens.rest a s = .ok (a', s') ∧ r a s a' s'
  generalize s.tokens.rest = left
  induction left generalizing a s with
  | nil => exact ⟨a, s, rfl, stop a s start⟩
  | cons _ left ih =>
    by_cases more : test s.tokens.peek.kind = true
    · obtain ⟨a1, s1, run, start1, extend⟩ := step a s start more
      obtain ⟨a2, s2, run2, holds⟩ := ih start1
      exact ⟨a2, s2, by simp only [repeatWhile.go, more, if_true, run, run2], extend a2 s2 holds⟩
    · exact ⟨a, s, by simp only [repeatWhile.go, more]; rfl, stop a s start⟩

/-- What every run keeps holds after a repetition. -/
theorem repeatWhile_keeps {test : TokenKind → Bool} {body : α → Compile α} {i : α → Compiler → Prop}
    (step : ∀ a s, i a s → test s.tokens.peek.kind = true → Ensures (body a) s i) (start : i a s) :
    Ensures (repeatWhile test body a) s i :=
  repeatWhile_ensures (r := fun _ _ => i) (fun _ _ holds => holds)
    (fun a s holds more => (step a s holds more).mono fun _ _ holds => ⟨holds, fun _ _ => id⟩) start

end Compile

end MicroJava

import MicroJava.Proofs.Grammar.Statement
import MicroJava.Proofs.Lexing.Order

/-! # The language that is accepted

A source text without diagnostics is written as a program of the grammar. A text that is written as
a program is never said to break the grammar first: its first diagnostic, if there is one, is about
something else.
-/

namespace MicroJava

open Syntax Compile List

/-! ## Every `else` can belong to the nearest `if` -/

namespace Syntax

/-- A statement with one more `else`, which belongs to the last `if` that has none. -/
def Stmt.withElse : Stmt → Stmt → Stmt
  | .ifThen c body, other =>
    if body.endsOpen then .ifThen c (body.withElse other) else .ifElse c body other
  | .ifElse c body last, other => .ifElse c body (last.withElse other)
  | .loop c body, other => .loop c (body.withElse other)
  | stmt, _ => stmt

theorem Stmt.lexemes_withElse : (stmt other : Stmt) → stmt.endsOpen = true →
    (stmt.withElse other).lexemes = stmt.lexemes ++ .keyword .elseKw :: other.lexemes
  | .ifThen c body, other, _ => by
    unfold Stmt.withElse
    split
    · next opened => simp [Stmt.lexemes, body.lexemes_withElse other opened]
    · simp [Stmt.lexemes]
  | .ifElse c body last, other, opened => by
    simp [Stmt.withElse, Stmt.lexemes, last.lexemes_withElse other opened]
  | .loop c body, other, opened => by
    simp [Stmt.withElse, Stmt.lexemes, body.lexemes_withElse other opened]

theorem Stmt.proper_withElse : (stmt other : Stmt) → stmt.proper = true → other.proper = true →
    (stmt.withElse other).proper = true
  | .ifThen c body, other, proper, properElse => by
    unfold Stmt.withElse
    split
    · exact body.proper_withElse other proper properElse
    · next closed =>
      simp only [Stmt.proper] at proper
      simp [Stmt.proper, proper, closed, properElse]
  | .ifElse c body last, other, proper, properElse => by
    simp only [Stmt.proper, Bool.and_eq_true] at proper
    simp only [Stmt.withElse, Stmt.proper, Bool.and_eq_true]
    exact ⟨proper.1, last.proper_withElse other proper.2 properElse⟩
  | .loop c body, other, proper, properElse => body.proper_withElse other proper properElse
  | .assign .., _, _, _ | .update .., _, _, _ | .step .., _, _, _ | .call .., _, _, _
  | .leave, _, _, _ | .yield _, _, _, _ | .read _, _, _, _ | .print .., _, _, _
  | .empty, _, _, _ => rfl
  | .block _, _, proper, _ => proper

mutual

theorem Stmt.exists_proper : (stmt : Stmt) →
    ∃ same : Stmt, same.lexemes = stmt.lexemes ∧ same.proper = true
  | .ifThen c body => by
    obtain ⟨body', lexemes, proper⟩ := body.exists_proper
    exact ⟨.ifThen c body', by simp [Stmt.lexemes, lexemes], by simpa [Stmt.proper] using proper⟩
  | .ifElse c body other => by
    obtain ⟨body', lexemes, proper⟩ := body.exists_proper
    obtain ⟨other', lexemes', proper'⟩ := other.exists_proper
    by_cases opened : body'.endsOpen = true
    · refine ⟨.ifThen c (body'.withElse other'), ?_, ?_⟩
      · simp [Stmt.lexemes, body'.lexemes_withElse other' opened, lexemes, lexemes']
      · simpa [Stmt.proper] using body'.proper_withElse other' proper proper'
    · refine ⟨.ifElse c body' other', by simp [Stmt.lexemes, lexemes, lexemes'], ?_⟩
      simp [Stmt.proper, proper, proper', opened]
  | .loop c body => by
    obtain ⟨body', lexemes, proper⟩ := body.exists_proper
    exact ⟨.loop c body', by simp [Stmt.lexemes, lexemes], by simpa [Stmt.proper] using proper⟩
  | .block body => by
    obtain ⟨body', lexemes, proper⟩ := Stmt.exists_listProper body
    exact ⟨.block body', by simp [Stmt.lexemes, lexemes], by simpa [Stmt.proper] using proper⟩
  | .assign d e => ⟨.assign d e, rfl, rfl⟩
  | .update d op e => ⟨.update d op e, rfl, rfl⟩
  | .step d up => ⟨.step d up, rfl, rfl⟩
  | .call d args => ⟨.call d args, rfl, rfl⟩
  | .leave => ⟨.leave, rfl, rfl⟩
  | .yield e => ⟨.yield e, rfl, rfl⟩
  | .read d => ⟨.read d, rfl, rfl⟩
  | .print e width => ⟨.print e width, rfl, rfl⟩
  | .empty => ⟨.empty, rfl, rfl⟩

theorem Stmt.exists_listProper : (body : List Stmt) →
    ∃ same, Stmt.listLexemes same = Stmt.listLexemes body ∧ Stmt.listProper same = true
  | [] => ⟨[], rfl, rfl⟩
  | stmt :: body => by
    obtain ⟨stmt', lexemes, proper⟩ := stmt.exists_proper
    obtain ⟨body', lexemes', proper'⟩ := Stmt.exists_listProper body
    exact ⟨stmt' :: body', by simp [Stmt.listLexemes, lexemes, lexemes'],
      by simp [Stmt.listProper, proper, proper']⟩

end

theorem Program.exists_proper (p : Program) :
    ∃ same : Program, same.lexemes = p.lexemes ∧ same.proper = true := by
  obtain ⟨name, decls, methods⟩ := p
  suffices ∃ same : List Method, same.flatMap Method.lexemes = methods.flatMap Method.lexemes ∧
      ∀ m ∈ same, Stmt.listProper m.body = true by
    obtain ⟨same, lexemes, proper⟩ := this
    exact ⟨⟨name, decls, same⟩, by simp [Program.lexemes, lexemes], by simpa [Program.proper]⟩
  induction methods with
  | nil => exact ⟨[], rfl, by simp⟩
  | cons m methods ih =>
    obtain ⟨body, lexemes, proper⟩ := Stmt.exists_listProper m.body
    obtain ⟨same, lexemes', proper'⟩ := ih
    refine ⟨{ m with body } :: same, ?_, forall_mem_cons.mpr ⟨proper, proper'⟩⟩
    simp [Method.lexemes, lexemes, lexemes']

/-- Whether the grammar derives the tokens of a source text. -/
def Derivable (source : List Char) : Prop :=
  ∃ p : Program, (Token.all source).map Token.lexeme = p.lexemes ++ [.eof]

end Syntax

/-! ## Declarations -/

namespace Compile

variable {α : Type} {s : Compiler} {text rest : List Lexeme}

instance {name : String} : Follows isBracket (.ident name :: rest) := ⟨ends_cons.mpr rfl⟩

instance (n : TypeName) [follows : Follows isBracket rest] :
    Parsing typeName (n.lexemes ++ rest) rest := by
  obtain ⟨name, isArray⟩ := n
  have lexemes : (⟨name, isArray⟩ : TypeName).lexemes ++ rest = .ident name ::
      ((if isArray then some () else none).elim []
        (fun _ => [.mark .leftBracket, .mark .rightBracket]) ++ rest) := by
    cases isArray <;> rfl
  rw [lexemes]
  refine .step fun name => .step fun _ => .step fun entity => .step fun _ => ?_
  exact .optional _ _ (fun _ => ⟨_, _, rfl, rfl⟩) (fun _ => follows.ends.not_mark rfl) inferInstance
    inferInstance

instance (constant : EntityId) (type : TypeId) (literal : Literal) :
    Parsing (constantValue constant type) (literal.lexeme :: rest) rest := by
  refine ⟨fun s => .lookahead ?_⟩
  have : Parsing scan (literal.lexeme :: rest) rest :=
    ⟨fun s => scan_parses (by cases literal <;> simp [Literal.lexeme])⟩
  split
  · split
    · exact Parsing.parses s
    · exact report_parses (f := pure) rfl
  · next missing =>
    refine (Steady.reads s).parses fun faces => ?_
    rw [faces.kind] at missing
    cases literal <;> cases missing

theorem constDeclaration_parses (type : TypeName) (name : String) (literal : Literal) :
    Parsing constDeclaration ((Decl.const type name literal).lexemes ++ rest) rest := by
  simp only [Decl.lexemes, cons_append, append_assoc, nil_append]
  unfold constDeclaration
  repeat with_reducible refine .step fun _ => ?_
  infer_instance

theorem variableName_parses (type : TypeId) (u : Unit) (name : String) :
    Parses (variableName type u) s (.ident name :: rest) rest := by
  refine .facing fun faces => .lookahead ?_
  rw [faces.kind, if_pos (by rfl)]
  exact Parsing.parses s

instance (d : VarDecl) : Parsing varDeclaration (d.lexemes ++ rest) rest := by
  obtain ⟨type, first, others⟩ := d
  simp only [VarDecl.lexemes, cons_append, append_assoc, nil_append]
  refine .step fun type => ?_
  have names : Parsing (commaSeparated (variableName type) ()) (.ident first ::
      ((others.flatMap fun name => [.mark .comma, .ident name]) ++ .mark .semicolon :: rest))
      (.mark .semicolon :: rest) :=
    ⟨fun s => commaSeparated_parses (fun name => [.ident name]) (fun _ => false) rfl
      (fun name _ u s rest _ => variableName_parses type u name) (ends_cons.mpr rfl) fun _ _ => rfl⟩
  exact names.bind

instance (ds : List VarDecl) [follows : Follows isName rest] :
    Parsing varDeclarations (ds.flatMap VarDecl.lexemes ++ rest) rest :=
  ⟨fun s => repeatWhile_parses _ (fun _ => false) rfl
    (fun _ s more => varDeclaration_reads fun _ => by simpa using more)
    (fun d _ => ⟨_, _, rfl, rfl, rfl⟩) (fun d _ _ s rest _ _ => Parsing.parses s) follows.ends
    fun _ _ => rfl⟩

instance : Follows isName (.mark .leftBrace :: rest) := ⟨ends_cons.mpr rfl⟩

instance : Follows isName (.mark .rightBrace :: rest) := ⟨ends_cons.mpr rfl⟩

instance {action : Compile Unit} [Parsing action text rest] : Parsing (inScope action) text rest := by
  refine .step fun _ => .step fun _ => .step fun _ => ?_
  split <;> infer_instance

instance (fields : List VarDecl) : Parsing fieldDeclarations
    (fields.flatMap VarDecl.lexemes ++ .mark .rightBrace :: rest) (.mark .rightBrace :: rest) := by
  unfold fieldDeclarations
  infer_instance

theorem classDeclaration_parses (name : String) (fields : List VarDecl) :
    Parsing classDeclaration ((Decl.classDecl name fields).lexemes ++ rest) rest := by
  simp only [Decl.lexemes, cons_append, append_assoc, nil_append]
  unfold classDeclaration
  repeat with_reducible refine .step fun _ => ?_
  infer_instance

theorem globalDeclaration_parses (d : Decl) (more : s.tokens.peek.kind ≠ .eof) :
    Parses globalDeclaration s (d.lexemes ++ rest) rest := by
  refine (globalDeclaration_reads more).facing fun faces => .lookahead ?_
  cases d with
  | const type name literal =>
    rw [faces.kind]
    exact (constDeclaration_parses type name literal).parses s
  | vars d =>
    rw [faces.kind, Decl.lexemes]
    exact Parsing.parses (m := varDeclaration) s
  | classDecl name fields =>
    rw [faces.kind]
    exact (classDeclaration_parses name fields).parses s

/-! ## Methods -/

instance (state : Nat × Option EntityId) (p : Parameter) :
    Parsing (parameter state) (p.lexemes ++ rest) rest := by
  rw [Parameter.lexemes]
  unfold parameter
  infer_instance

instance (method : EntityId) (ps : Parameters) :
    Parsing (parameters method) (ps.lexemes ++ .mark .rightParen :: rest)
      (.mark .rightParen :: rest) := by
  obtain ⟨first, others, variadic⟩ := ps
  have stops : Ends (· == .mark .comma) ((if variadic then some () else none).elim []
      (fun _ => [.mark .ellipsis]) ++ .mark .rightParen :: rest) := by
    cases variadic <;> exact ends_cons.mpr rfl
  have lexemes : (Parameters.mk first others variadic).lexemes ++ .mark .rightParen :: rest =
      first.lexemes ++ ((others.flatMap fun p => .mark .comma :: p.lexemes) ++
        ((if variadic then some () else none).elim [] (fun _ => [.mark .ellipsis]) ++
          .mark .rightParen :: rest)) := by
    cases variadic <;> simp [Parameters.lexemes]
  have list : Parsing (commaSeparated parameter (0, none))
      (first.lexemes ++ ((others.flatMap fun p => .mark .comma :: p.lexemes) ++ _)) _ :=
    ⟨fun s => commaSeparated_parses Parameter.lexemes (fun _ => false) rfl
      (fun p _ a s rest _ => Parsing.parses s) stops fun _ _ => rfl⟩
  rw [lexemes]
  refine .step fun parts => .optional _ _ (fun _ => ⟨_, _, rfl, rfl⟩) (by simp [Lexeme.kind]) ?_
    inferInstance
  refine .step fun _ => ?_
  split <;> infer_instance

instance : Inhabited Parameters := ⟨⟨⟨⟨"", false⟩, ""⟩, [], false⟩⟩

instance (method : EntityId) (ps : Option Parameters) :
    Parsing (parameterList method) (ps.elim [] Parameters.lexemes ++ .mark .rightParen :: rest)
      (.mark .rightParen :: rest) :=
  .optional _ ps (fun ps => ⟨_, _, rfl, rfl⟩) (by simp [Lexeme.kind]) inferInstance inferInstance

instance (method : EntityId) (name : String) (type : TypeId) (adr : Nat) (ps : Option Parameters)
    (locals : List VarDecl) : Parsing (methodHead method name type adr)
      (ps.elim [] Parameters.lexemes ++ .mark .rightParen ::
        (locals.flatMap VarDecl.lexemes ++ .mark .leftBrace :: rest)) (.mark .leftBrace :: rest) := by
  unfold methodHead
  repeat with_reducible refine .step fun _ => ?_
  infer_instance

instance (result : Option TypeName) (name : String) : Parsing resultType
    (result.elim [.keyword .voidKw] TypeName.lexemes ++ .ident name :: rest)
    (.ident name :: rest) := by
  refine ⟨fun s => .lookahead ?_⟩
  split
  · next ident =>
    refine (typeName_reads fun _ => ident).facing fun faces => ?_
    cases result with
    | none =>
      rw [faces.kind] at ident
      cases ident
    | some type =>
      rw [Option.elim_some]
      exact Parsing.parses s
  · next noIdent =>
    refine .ofSame (.keyword .voidKw :: .ident name :: rest) (fun faces => ?_) (Parsing.parses s)
    cases result with
    | none => rfl
    | some type => exact absurd faces.kind noIdent

theorem methodFrom_parses {m : Method} (proper : Stmt.listProper m.body = true) :
    Parsing methodFrom (m.lexemes ++ rest) rest := by
  have : Parsing (block (statement maxNesting)) (.mark .leftBrace :: (Stmt.listLexemes m.body ++
      .mark .rightBrace :: rest)) rest :=
    block_parses (statement_parses maxNesting) (Stmt.listProper_iff.mp proper)
  simp only [Method.lexemes, cons_append, append_assoc, nil_append]
  unfold methodFrom methodBody
  repeat with_reducible refine .step fun _ => ?_
  infer_instance

theorem methodDeclaration_parses {m : Method} (proper : Stmt.listProper m.body = true)
    (more : s.tokens.peek.kind ≠ .eof) : Parses methodDeclaration s (m.lexemes ++ rest) rest := by
  refine (methodDeclaration_reads more).facing fun faces => .lookahead ?_
  obtain ⟨l, others, begins, starts⟩ : ∃ l others, m.lexemes = l :: others ∧
      (l.kind = .ident ∨ l.kind = .keyword .voidKw) := by
    obtain ⟨_ | type, name, ps, locals, body⟩ := m
    · exact ⟨_, _, rfl, .inr rfl⟩
    · exact ⟨_, _, rfl, .inl rfl⟩
  have kind : s.tokens.peek.kind = l.kind := by
    rw [begins] at faces
    exact faces.kind
  have known : (s.tokens.peek.kind != .ident && s.tokens.peek.kind != .keyword .voidKw) = false := by
    rw [kind]
    rcases starts with same | same <;> rw [same] <;> rfl
  rw [known]
  refine .lookahead ?_
  rw [if_neg more]
  exact (methodFrom_parses proper).parses s

/-! ## Programs -/

instance (ds : List Decl) : Parsing globalDeclarations
    (ds.flatMap Decl.lexemes ++ .mark .leftBrace :: rest) rest := by
  refine ⟨fun s => (repeatWhile_parses _ (fun _ => false) rfl
    (fun _ s more => globalDeclaration_reads ?_) (fun d _ => ?_)
    (fun d _ _ s rest more _ => globalDeclaration_parses d ?_) (ends_cons.mpr rfl)
    fun _ _ => rfl).bind fun _ s1 => Parsing.parses s1⟩
  · simp at more
    exact more.2
  · cases d <;> exact ⟨_, _, rfl, rfl, rfl⟩
  · simp at more
    exact more.2

theorem methods_parses {ms : List Method} (proper : ∀ m ∈ ms, Stmt.listProper m.body = true) :
    Parsing methods (ms.flatMap Method.lexemes ++ .mark .rightBrace :: rest)
      (.mark .rightBrace :: rest) := by
  refine ⟨fun s => repeatWhile_parses _ (fun _ => false) rfl
    (fun _ s more => methodDeclaration_reads ?_) (fun m _ => ?_) (fun m member _ s rest more _ =>
      methodDeclaration_parses (proper m member) ?_) (ends_cons.mpr rfl) fun _ _ => rfl⟩
  · simp at more
    exact more.2
  · obtain ⟨_ | type, name, ps, locals, body⟩ := m <;> exact ⟨_, _, rfl, rfl, rfl⟩
  · simp at more
    exact more.2

theorem program_parses (p : Program) (proper : p.proper = true) :
    Parsing program (p.lexemes ++ rest) rest := by
  simp only [Program.lexemes, cons_append, append_assoc, nil_append]
  have : Parsing methods (p.methods.flatMap Method.lexemes ++ .mark .rightBrace :: rest)
      (.mark .rightBrace :: rest) := methods_parses (by simpa [Program.proper] using proper)
  unfold program programBody
  repeat with_reducible refine .step fun _ => ?_
  infer_instance

/-- The end of the source is found where it comes next. -/
theorem expect_eof_excuses {u : Unit} {s' : Compiler} (faces : s.Faces [.eof])
    (run : expect .eof s = .ok (u, s')) : s'.reporter.Excused ∨ s'.reporter.Ready := by
  change (if s.tokens.peek.kind = .eof then scan else report _ : Compile Unit) s = _ at run
  rw [faces.kind, if_pos (by rfl)] at run
  exact (scan_excuses faces run).first faces.ready

end Compile

/-! ## Source texts -/

/-- The lexer finds only lexical problems. -/
theorem Scanned.all_lexical (source : List Char) :
    ∀ scanned ∈ Scanned.all source, ∀ d ∈ scanned.diagnostics, d.problem.isGrammar = false := by
  intro scanned member d found
  have lexical := (all_orderly source scanned member).lexical d found
  cases problem : d.problem with
  | grammar _ => simp [problem, Problem.isLexical] at lexical
  | _ => rfl

/-- Before the first token of a text, the text lies ahead. -/
theorem Compiler.start_faces (limits : Limits) (source : List Char) :
    (Compiler.start .standard limits source).Faces
      (.unknown :: (Token.all source).map Token.lexeme) where
  ready := ⟨rfl, Nat.le_refl _⟩
  upcoming := by
    simp [Compiler.start, TokenStream.upcoming, TokenStream.ofSource, Token.before, Token.all]
  lexical := Scanned.all_lexical source

/-- The grammar is exactly what the compiler accepts. A text without diagnostics can be derived from
the grammar. If a text can be derived, then its first diagnostic, if there is one, is not about the
grammar. -/
theorem Compilation.run_grammar (limits : Limits) (source : List Char) :
    ∃ result, Compilation.run limits source = .ok result ∧
      (result.diagnostics = [] → Derivable source) ∧
      (Derivable source → ∀ d ∈ result.diagnostics.head?, d.problem.isGrammar = false) := by
  obtain ⟨s, runs, result, _, accepted⟩ := Compilation.run_yields limits source
  refine ⟨_, result, fun none => ?_, ?_⟩
  · obtain ⟨p, _, _, _, yields, _⟩ := accepted none
    exact ⟨p, yields.tree.1⟩
  · rintro ⟨p, derived⟩
    obtain ⟨same, lexemes, proper⟩ := p.exists_proper
    obtain ⟨_, s₁, scanned, rest⟩ := run_bind runs
    obtain ⟨_, s₂, compiled, ended⟩ := run_bind rest
    have faces := Compiler.start_faces limits source
    rw [derived, ← lexemes] at faces
    have wellFormed : (Compiler.start .standard limits source).tokens.WellFormed :=
      (Compiler.start_valid limits source fun _ => Nat.le_refl _).tokens
    have parses : Parses (do scan; program)
        (.start .standard limits source) (.unknown :: (same.lexemes ++ [.eof])) [.eof] :=
      (scan_parses (by simp)).bind fun _ s => (program_parses same proper).parses s
    obtain ⟨_, _, parsed⟩ := parses wellFormed () s₂ ((bind_run scanned).trans compiled)
    have first : s.reporter.Excused ∨ s.reporter.Ready := by
      rcases parsed faces with excused | faces₂
      · exact .inl (excused.continues (expect_eof_run ended).2.recorded)
      · exact expect_eof_excuses faces₂ ended
    rcases first with ⟨d, more, recorded, mild⟩ | ready
    · simpa [recorded] using mild
    · simp [ready.1]

end MicroJava

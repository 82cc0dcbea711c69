import MicroJava.Proofs.Grammar.Expression
import MicroJava.Proofs.Syntax.Unambiguous

/-! # Statements follow the grammar

Each action for a statement parses every statement of its kind whose every `else` belongs to the
nearest `if`. Where an `else` could still belong to the statement, none may follow.
-/

namespace MicroJava

open List Syntax Compile

namespace Compile

variable {expr : Compile Operand} {nested : Compile Unit} {s : Compiler} {x : Operand}
  {text rest : List Lexeme}

/-- Whether an action parses every statement. -/
structure ParsesStmt (nested : Compile Unit) : Prop where
  reads : ReadsStmt nested
  parses : ∀ (stmt : Stmt) (rest : List Lexeme), stmt.proper = true →
    (stmt.endsOpen = true → Ends isElse rest) → Parsing nested (stmt.lexemes ++ rest) rest

instance : Follows continuesDesignator (.mark .rightParen :: rest) := ⟨ends_cons.mpr rfl⟩

instance (use : DesignatorUse) : Follows continuesDesignator (use.lexemes ++ rest) :=
  ⟨use.ends rest⟩

instance : Inhabited Stmt := ⟨.empty⟩

section

variable [ParsesExpr expr]

/-! ## Statements that begin with a designator -/

instance (m : Mark) (e : Expr) [Follows Lexeme.continuesExpr rest] :
    Parsing (assignment expr x) (.mark m :: (e.lexemes ++ rest)) rest := by
  unfold assignment
  repeat with_reducible refine .step fun _ => ?_
  infer_instance

instance (op : Opcode) (m : Mark) (e : Expr) [Follows Lexeme.continuesExpr rest] :
    Parsing (compoundAssignment expr x op) (.mark m :: (e.lexemes ++ rest)) rest := by
  unfold compoundAssignment
  repeat with_reducible refine .step fun _ => ?_
  infer_instance

instance (args : Arguments) : Parsing (callStatement expr x) (args.lexemes ++ rest) rest := by
  unfold callStatement
  infer_instance

instance (use : DesignatorUse) :
    Parsing (designatorUse expr x) (use.lexemes ++ rest) (.mark .semicolon :: rest) := by
  refine ⟨fun s => .facing fun faces => .lookahead ?_⟩
  have kind : s.tokens.peek.kind = use.key.kind := by
    obtain ⟨more, begins⟩ := use.lexemes_eq
    rw [begins] at faces
    exact faces.kind
  rw [kind]
  cases use with
  | assign e =>
    rw [DesignatorUse.lexemes]
    exact Parsing.parses (m := assignment expr x) s
  | update op e =>
    rw [DesignatorUse.lexemes]
    rcases op with (_ | _) | (_ | _ | _) <;> exact Parsing.parses (m := compoundAssignment expr x _) s
  | step up =>
    rw [DesignatorUse.lexemes]
    cases up <;> exact Parsing.parses (m := do codeReported (x.step _); scan) s
  | call args =>
    rw [DesignatorUse.lexemes]
    exact Parsing.parses (m := callStatement expr x) s

theorem designatorStatement_parses (d : Designator) (use : DesignatorUse) :
    Parsing (designatorStatement expr) ((use.stmt d).lexemes ++ rest) rest := by
  rw [use.lexemes_stmt d]
  unfold designatorStatement
  infer_instance

/-! ## Other statements -/

theorem ifStatement_parses (innerStmt : ParsesStmt nested) (c : Disjunction) {body : Stmt}
    (other : Option Stmt) (proper : body.proper = true)
    (properElse : other.elim true Stmt.proper = true)
    (open_ : body.endsOpen = true →
      Ends isElse (other.elim [] (fun stmt => .keyword .elseKw :: stmt.lexemes) ++ rest))
    (last : other.elim true Stmt.endsOpen = true → Ends isElse rest) :
    Parsing (ifStatement nested expr) (.keyword .ifKw :: .mark .leftParen :: (c.lexemes ++
      .mark .rightParen :: (body.lexemes ++
        (other.elim [] (fun stmt => .keyword .elseKw :: stmt.lexemes) ++ rest)))) rest := by
  have := innerStmt.parses body _ proper open_
  have : Parsing nested ((other.getD default).lexemes ++ rest) rest := by
    cases other with
    | none => exact innerStmt.parses .empty rest rfl nofun
    | some other => exact innerStmt.parses other rest properElse last
  refine .step fun _ => .step fun _ => .step fun onFalse => .step fun _ => ?_
  refine .optional _ other (fun _ => ⟨_, _, rfl, rfl⟩) (fun none l next found => ?_) inferInstance
    inferInstance
  subst none
  have stops := last rfl l next
  rw [lexeme_of_kind_keyword found] at stops
  cases stops

instance [Parsing nested text rest] : Parsing (inLoop nested) text rest := by
  refine .step fun _ => .step fun _ => .step fun _ => ?_
  split <;> infer_instance

theorem whileStatement_parses (innerStmt : ParsesStmt nested) (c : Disjunction) {body : Stmt}
    (proper : body.proper = true) (open_ : body.endsOpen = true → Ends isElse rest) :
    Parsing (whileStatement nested expr) ((Stmt.loop c body).lexemes ++ rest) rest := by
  have := innerStmt.parses body rest proper open_
  rw [Stmt.lexemes]
  unfold whileStatement
  repeat with_reducible refine .step fun _ => ?_
  infer_instance

instance : Parsing breakStatement ([.keyword .breakKw, .mark .semicolon] ++ rest) rest := by
  refine .step fun _ => .step fun _ => ?_
  split <;> infer_instance

instance (type : TypeId) (e : Option Expr) : Parsing (returnedValue expr type)
    (e.elim [] Expr.lexemes ++ .mark .semicolon :: rest) (.mark .semicolon :: rest) := by
  refine .optional Expr.lexemes e (fun e => ?_) (fun _ => by simp; decide) inferInstance
    inferInstance
  obtain ⟨l, more, begins, starts⟩ := e.begins
  exact ⟨l, more, begins, (startsExpression_kind l).trans starts⟩

theorem returnStatement_parses (e : Option Expr) :
    Parsing (returnStatement expr) ((Stmt.yield e).lexemes ++ rest) rest := by
  simp only [Stmt.lexemes, cons_append, append_assoc, nil_append]
  unfold returnStatement
  infer_instance

theorem readStatement_parses (d : Designator) :
    Parsing (readStatement expr) ((Stmt.read d).lexemes ++ rest) rest := by
  rw [Stmt.lexemes]
  unfold readStatement
  repeat with_reducible refine .step fun _ => ?_
  infer_instance

instance (width : Option Int32) (other : Int32) : Parsing (printWidth other)
    (width.elim [] (fun value => [.mark .comma, .number value]) ++ .mark .rightParen :: rest)
    (.mark .rightParen :: rest) :=
  .optional _ width (fun value => ⟨_, _, rfl, rfl⟩) (by simp [Lexeme.kind]) inferInstance inferInstance

theorem printStatement_parses (e : Expr) (width : Option Int32) :
    Parsing (printStatement expr) (.keyword .printKw :: .mark .leftParen :: (e.lexemes ++
      (width.elim [] (fun value => [.mark .comma, .number value]) ++
        .mark .rightParen :: .mark .semicolon :: rest))) rest := by
  have : Follows Lexeme.continuesExpr (width.elim [] (fun value => [.mark .comma, .number value]) ++
      .mark .rightParen :: .mark .semicolon :: rest) := by
    cases width <;> exact ⟨ends_cons.mpr rfl⟩
  unfold printStatement
  repeat with_reducible refine .step fun _ => ?_
  infer_instance

theorem block_parses (innerStmt : ParsesStmt nested) {body : List Stmt}
    (proper : ∀ stmt ∈ body, stmt.proper = true) :
    Parsing (block nested) (.mark .leftBrace :: (Stmt.listLexemes body ++
      .mark .rightBrace :: rest)) rest := by
  rw [Stmt.listLexemes_eq]
  refine .step fun _ => ⟨fun s => ?_⟩
  refine (repeatWhile_parses _ isElse rfl (fun _ s more => innerStmt.reads True s ?_)
    (fun stmt _ => ?_) (fun stmt member _ s rest _ follows => ?_) (ends_cons.mpr rfl)
    (ends_cons.mpr rfl)).bind fun _ s2 => Parsing.parses s2
  · simpa using more
  · obtain ⟨l, more, begins, _, stops⟩ := separate_statements.starts stmt
    refine ⟨l, more, begins, ?_, stops⟩
    obtain ⟨l', more', begins', kind⟩ := stmt.begins
    obtain ⟨rfl, rfl⟩ := cons.inj (begins.symm.trans begins')
    rw [kind]
    cases stmt <;> rfl
  · exact (innerStmt.parses stmt rest (proper stmt member) fun _ => follows).parses s

theorem singleStatement_parses (innerStmt : ParsesStmt nested) (stmt : Stmt)
    (proper : stmt.proper = true) (open_ : stmt.endsOpen = true → Ends isElse rest) :
    Parses (singleStatement nested expr) s (stmt.lexemes ++ rest) rest := by
  refine (singleStatement_reads innerStmt.reads False.elim).facing
    fun faces => .lookahead ?_
  have kind : s.tokens.peek.kind = stmt.firstKind := by
    obtain ⟨l, more, begins, kind⟩ := stmt.begins
    rw [begins] at faces
    rw [← kind]
    exact faces.kind
  rw [kind]
  cases stmt with
  | assign d e => exact (designatorStatement_parses d (.assign e)).parses s
  | update d op e => exact (designatorStatement_parses d (.update op e)).parses s
  | step d up => exact (designatorStatement_parses d (.step up)).parses s
  | call d args => exact (designatorStatement_parses d (.call args)).parses s
  | ifThen c body =>
    simp only [Stmt.lexemes, cons_append, append_assoc, nil_append]
    have stops : Ends isElse rest := open_ rfl
    exact (ifStatement_parses innerStmt c none (by simpa [Stmt.proper] using proper) rfl
      (fun _ => stops) fun _ => stops).parses s
  | ifElse c body other =>
    simp only [Stmt.lexemes, cons_append, append_assoc, nil_append]
    simp only [Stmt.proper, Bool.and_eq_true, Bool.not_eq_true'] at proper
    obtain ⟨⟨properBody, closed⟩, properElse⟩ := proper
    refine (ifStatement_parses innerStmt c (some other) properBody properElse
      (fun opened => ?_) (by simpa [Stmt.endsOpen] using open_)).parses s
    rw [closed] at opened
    cases opened
  | loop c body =>
    exact (whileStatement_parses innerStmt c (by simpa [Stmt.proper] using proper)
      (by simpa [Stmt.endsOpen] using open_)).parses s
  | leave =>
    rw [Stmt.lexemes]
    exact Parsing.parses (m := breakStatement) s
  | yield e => exact (returnStatement_parses e).parses s
  | read d => exact (readStatement_parses d).parses s
  | print e width =>
    simp only [Stmt.lexemes, cons_append, append_assoc, nil_append]
    exact (printStatement_parses e width).parses s
  | block body =>
    simp only [Stmt.lexemes, cons_append, append_assoc, nil_append]
    exact (block_parses innerStmt
      (Stmt.listProper_iff.mp (by simpa [Stmt.proper] using proper))).parses s
  | empty => exact scan_parses (by simp)

end

theorem deepStatement_parses : Parses deepStatement s text rest := by
  have : Steady skipStatement := ⟨fun _ => skipStatement_reads False.elim⟩
  exact report_parses rfl

theorem statement_parses (levels : Nat) : ParsesStmt (statement levels) := by
  induction levels with
  | zero => exact ⟨fun _ _ => statement_reads 0, fun _ _ _ _ => ⟨fun _ => deepStatement_parses⟩⟩
  | succ levels ih =>
    refine ⟨fun _ _ => statement_reads _, fun stmt rest proper open_ => ⟨fun s => ?_⟩⟩
    apply deeper_parses deepStatement_parses
    exact singleStatement_parses ih stmt proper open_

end Compile

end MicroJava

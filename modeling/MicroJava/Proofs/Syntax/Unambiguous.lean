import MicroJava.Proofs.Syntax.Phrase

/-! # Programs can be read in one way only

Equal texts are cut into statements and declarations at the same places, since each begins with a
lexeme of its own. An `else` is the exception: it is no longer clear to which `if` it belongs. A program
whose every `else` belongs to the nearest `if` is determined by its lexemes.
-/

namespace MicroJava.Syntax

open List

variable {rest rest' : List Lexeme}

/-! ## Statements -/

/-- The kind of lexeme that a statement begins with. -/
def Stmt.firstKind : Stmt → TokenKind
  | .assign .. | .update .. | .step .. | .call .. => .ident
  | .ifThen .. | .ifElse .. => .keyword .ifKw
  | .loop .. => .keyword .whileKw
  | .leave => .keyword .breakKw
  | .yield _ => .keyword .returnKw
  | .read _ => .keyword .readKw
  | .print .. => .keyword .printKw
  | .block _ => .mark .leftBrace
  | .empty => .mark .semicolon

theorem Stmt.begins (s : Stmt) : ∃ l more, s.lexemes = l :: more ∧ l.kind = s.firstKind := by
  cases s with
  | assign d | update d | step d | call d =>
    obtain ⟨name, selectors⟩ := d
    exact ⟨_, _, rfl, rfl⟩
  | _ => exact ⟨_, _, rfl, rfl⟩

/-- Texts that begin with statements and are equal begin with statements of the same kind. -/
theorem Stmt.firstKind_eq {s other : Stmt} (same : s.lexemes ++ rest = other.lexemes ++ rest') :
    s.firstKind = other.firstKind := by
  obtain ⟨l, more, begins, kind⟩ := s.begins
  obtain ⟨l', more', begins', kind'⟩ := other.begins
  rw [begins, begins'] at same
  rw [← kind, ← kind', (cons.inj same).1]

theorem Stmt.listLexemes_eq (body : List Stmt) :
    Stmt.listLexemes body = body.flatMap Stmt.lexemes := by
  induction body with
  | nil => rfl
  | cons s body ih => simp [Stmt.listLexemes, ih]

theorem Stmt.listProper_iff {body : List Stmt} :
    Stmt.listProper body = true ↔ ∀ s ∈ body, s.proper = true := by
  induction body with
  | nil => simp [Stmt.listProper]
  | cons s body ih => simp [Stmt.listProper, ih]

def isElse (l : Lexeme) : Bool := l == .keyword .elseKw

theorem separate_statements : Separate Stmt.lexemes isElse (· != .mark .rightBrace) where
  starts s := by
    obtain ⟨l, more, begins, kind⟩ := s.begins
    refine ⟨l, more, begins, ?_, ?_⟩ <;> cases s <;> cases l <;>
      simp_all [isElse, Lexeme.kind, Stmt.firstKind]
  weaker l continues := by simp_all [isElse]

/-- Whether a statement can be told from any text that begins with it. Where an `else` could belong
to the statement, none follows. -/
def Stmt.Determined (s : Stmt) : Prop :=
  ∀ ⦃other rest rest'⦄, s.proper = true → other.proper = true →
    s.lexemes ++ rest = other.lexemes ++ rest' → (s.endsOpen = true → Ends isElse rest) →
    (other.endsOpen = true → Ends isElse rest') → s = other ∧ rest = rest'

/-- What a statement does with its designator. -/
inductive DesignatorUse where
  | assign (e : Expr)
  | update (op : UpdateOp) (e : Expr)
  | step (up : Bool)
  | call (args : Arguments)

namespace DesignatorUse

def stmt (d : Designator) : DesignatorUse → Stmt
  | assign e => .assign d e
  | update op e => .update d op e
  | step up => .step d up
  | call args => .call d args

def lexemes : DesignatorUse → List Lexeme
  | assign e => .mark .assign :: e.lexemes ++ [.mark .semicolon]
  | update op e => .mark op.mark :: e.lexemes ++ [.mark .semicolon]
  | step up => [.mark (if up then .plusPlus else .minusMinus), .mark .semicolon]
  | call args => args.lexemes ++ [.mark .semicolon]

theorem lexemes_stmt (d : Designator) (u : DesignatorUse) :
    (u.stmt d).lexemes = d.lexemes ++ u.lexemes := by
  cases u <;> simp [stmt, lexemes, Stmt.lexemes]

/-- The first lexeme of a use. -/
def key : DesignatorUse → Lexeme
  | assign _ => .mark .assign
  | update op _ => .mark op.mark
  | step up => .mark (if up then .plusPlus else .minusMinus)
  | call _ => .mark .leftParen

theorem lexemes_eq (u : DesignatorUse) : ∃ more, u.lexemes = u.key :: more := by
  cases u with
  | call args => obtain ⟨fixed, _ | _⟩ := args <;> exact ⟨_, rfl⟩
  | _ => exact ⟨_, rfl⟩

/-- The first lexeme of a use tells what is done. -/
theorem key_eq {u u' : DesignatorUse} (same : u.key = u'.key) :
    (∃ e e', u = assign e ∧ u' = assign e') ∨ (∃ op e e', u = update op e ∧ u' = update op e') ∨
      (∃ up, u = step up ∧ u' = step up) ∨ ∃ args args', u = call args ∧ u' = call args' := by
  rcases u with e | ⟨(_ | _) | (_ | _ | _), e⟩ | (_ | _) | args <;>
    rcases u' with e' | ⟨(_ | _) | (_ | _ | _), e'⟩ | (_ | _) | args' <;>
    simp_all [key, UpdateOp.mark]

theorem splits (u : DesignatorUse) : Splits lexemes (fun _ => false) u := by
  rintro u' r r' same _ _
  obtain ⟨more, begins⟩ := u.lexemes_eq
  obtain ⟨more', begins'⟩ := u'.lexemes_eq
  have key : u.key = u'.key := by
    rw [begins, begins'] at same
    exact (cons.inj same).1
  have value (l : Lexeme) (e : Expr) := e.splits.bracketed l
    (show Lexeme.continuesExpr (.mark .semicolon) = false from rfl) fun _ => false
  rcases key_eq key with ⟨e, e', rfl, rfl⟩ | ⟨op, e, e', rfl, rfl⟩ | ⟨up, rfl, rfl⟩ |
    ⟨args, args', rfl, rfl⟩
  · obtain ⟨rfl, rfl⟩ := value _ e same (by simp [Ends]) (by simp [Ends])
    exact ⟨rfl, rfl⟩
  · obtain ⟨rfl, rfl⟩ := value _ e same (by simp [Ends]) (by simp [Ends])
    exact ⟨rfl, rfl⟩
  · exact ⟨rfl, by simpa [lexemes] using same⟩
  · simp only [lexemes, append_assoc] at same
    obtain ⟨rfl, behind⟩ := args.splits same (by simp [Ends]) (by simp [Ends])
    exact ⟨rfl, (cons.inj behind).2⟩

/-- No use continues a designator. -/
theorem ends (u : DesignatorUse) (rest : List Lexeme) :
    Ends continuesDesignator (u.lexemes ++ rest) := by
  obtain ⟨more, begins⟩ := u.lexemes_eq
  rw [begins]
  rcases u with e | ⟨(_ | _) | (_ | _ | _), e⟩ | (_ | _) | args <;> exact ends_cons.mpr rfl

end DesignatorUse

/-- A statement either uses a designator or begins with no name. -/
theorem Stmt.uses_or_begins (s : Stmt) : (∃ d u, s = DesignatorUse.stmt d u) ∨
    ∃ l more, s.lexemes = l :: more ∧ ∀ name, l ≠ .ident name := by
  cases s with
  | assign d e => exact .inl ⟨d, .assign e, rfl⟩
  | update d op e => exact .inl ⟨d, .update op e, rfl⟩
  | step d up => exact .inl ⟨d, .step up, rfl⟩
  | call d args => exact .inl ⟨d, .call args, rfl⟩
  | _ => exact .inr ⟨_, _, rfl, by simp⟩

theorem DesignatorUse.determined (d : Designator) (u : DesignatorUse) : (u.stmt d).Determined := by
  intro other rest rest' _ _ same _ _
  rw [lexemes_stmt, append_assoc] at same
  rcases other.uses_or_begins with ⟨d', u', rfl⟩ | ⟨l, more, begins, noName⟩
  · rw [lexemes_stmt, append_assoc] at same
    obtain ⟨rfl, behind⟩ := d.splits same (u.ends rest) (u'.ends rest')
    obtain ⟨rfl, rfl⟩ := u.splits behind (by simp [Ends]) (by simp [Ends])
    exact ⟨rfl, rfl⟩
  · obtain ⟨name, selectors⟩ := d
    rw [begins] at same
    exact absurd (cons.inj same).1.symm (noName name)

/-- A condition in parentheses and what follows it. -/
theorem Disjunction.splits_guard {c c' : Disjunction}
    (same : c.lexemes ++ .mark .rightParen :: rest = c'.lexemes ++ .mark .rightParen :: rest') :
    c = c' ∧ rest = rest' := by
  obtain ⟨rfl, behind⟩ := c.splits same (ends_cons.mpr rfl) (ends_cons.mpr rfl)
  exact ⟨rfl, (cons.inj behind).2⟩

mutual

theorem Stmt.determined : (s : Stmt) → s.Determined
  | .assign d e => DesignatorUse.determined d (.assign e)
  | .update d op e => DesignatorUse.determined d (.update op e)
  | .step d up => DesignatorUse.determined d (.step up)
  | .call d args => DesignatorUse.determined d (.call args)
  | .ifThen c body => by
    have determined := body.determined
    intro other rest rest' proper proper' same ends ends'
    have kind := Stmt.firstKind_eq same
    cases other with
    | ifThen c' body' =>
      simp only [Stmt.proper] at proper proper'
      obtain ⟨rfl, behind⟩ := Disjunction.splits_guard (c := c) (by simpa [Stmt.lexemes] using same)
      obtain ⟨rfl, rfl⟩ := determined proper proper' behind (fun _ => ends rfl) (fun _ => ends' rfl)
      exact ⟨rfl, rfl⟩
    | ifElse c' body' other' =>
      simp only [Stmt.proper, Bool.and_eq_true, Bool.not_eq_true'] at proper proper'
      obtain ⟨rfl, behind⟩ := Disjunction.splits_guard (c := c) (by simpa [Stmt.lexemes] using same)
      obtain ⟨rfl, rfl⟩ := determined proper proper'.1.1 behind (fun _ => ends rfl)
        (fun opens => by simp [proper'.1.2] at opens)
      exact absurd (ends rfl) (by simp [isElse])
    | _ => cases kind
  | .ifElse c body branch => by
    have determined := body.determined
    have determined' := branch.determined
    intro other rest rest' proper proper' same ends ends'
    have kind := Stmt.firstKind_eq same
    cases other with
    | ifThen c' body' =>
      simp only [Stmt.proper, Bool.and_eq_true, Bool.not_eq_true'] at proper proper'
      obtain ⟨rfl, behind⟩ := Disjunction.splits_guard (c := c) (by simpa [Stmt.lexemes] using same)
      obtain ⟨rfl, rfl⟩ := determined proper.1.1 proper' behind
        (fun opens => by simp [proper.1.2] at opens) (fun _ => ends' rfl)
      exact absurd (ends' rfl) (by simp [isElse])
    | ifElse c' body' branch' =>
      simp only [Stmt.proper, Bool.and_eq_true, Bool.not_eq_true'] at proper proper'
      obtain ⟨rfl, behind⟩ := Disjunction.splits_guard (c := c) (by simpa [Stmt.lexemes] using same)
      obtain ⟨rfl, last⟩ := determined proper.1.1 proper'.1.1 behind
        (fun opens => by simp [proper.1.2] at opens) (fun opens => by simp [proper'.1.2] at opens)
      obtain ⟨rfl, rfl⟩ := determined' proper.2 proper'.2 (cons.inj last).2 ends ends'
      exact ⟨rfl, rfl⟩
    | _ => cases kind
  | .loop c body => by
    have determined := body.determined
    intro other rest rest' proper proper' same ends ends'
    have kind := Stmt.firstKind_eq same
    cases other with
    | loop c' body' =>
      simp only [Stmt.proper] at proper proper'
      obtain ⟨rfl, behind⟩ := Disjunction.splits_guard (c := c) (by simpa [Stmt.lexemes] using same)
      obtain ⟨rfl, rfl⟩ := determined proper proper' behind ends ends'
      exact ⟨rfl, rfl⟩
    | _ => cases kind
  | .leave => by
    intro other rest rest' _ _ same _ _
    have kind := Stmt.firstKind_eq same
    cases other with
    | leave => exact ⟨rfl, by simpa [Stmt.lexemes] using same⟩
    | _ => cases kind
  | .yield e => by
    intro other rest rest' _ _ same _ _
    have kind := Stmt.firstKind_eq same
    cases other with
    | yield e' =>
      have list (e : Option Expr) : e.elim [] Expr.lexemes = Expr.listLexemes e.toList := by
        cases e <;> simp [Expr.listLexemes, Expr.tailLexemes]
      simp only [Stmt.lexemes, list, cons_append, append_assoc, cons.injEq, true_and] at same
      obtain ⟨listed, behind⟩ := Expr.splits_list (fun e _ => e.splits) same (ends_cons.mpr rfl)
        (ends_cons.mpr rfl)
      exact ⟨by cases e <;> cases e' <;> simp_all, (cons.inj behind).2⟩
    | _ => cases kind
  | .read d => by
    intro other rest rest' _ _ same _ _
    have kind := Stmt.firstKind_eq same
    cases other with
    | read d' =>
      obtain ⟨rfl, behind⟩ := d.splits (by simpa [Stmt.lexemes] using same) (ends_cons.mpr rfl)
        (ends_cons.mpr rfl)
      exact ⟨rfl, by simpa using behind⟩
    | _ => cases kind
  | .print e width => by
    intro other rest rest' _ _ same _ _
    have kind := Stmt.firstKind_eq same
    cases other with
    | print e' width' =>
      simp only [Stmt.lexemes, append_assoc, cons_append, nil_append, cons.injEq, true_and] at same
      have stops (width : Option Int32) (rest : List Lexeme) : Ends Lexeme.continuesExpr
          (width.elim [] (fun value => [.mark .comma, .number value]) ++
            .mark .rightParen :: rest) := by
        cases width <;> exact ends_cons.mpr rfl
      obtain ⟨rfl, behind⟩ := e.splits same (stops _ _) (stops _ _)
      cases width <;> cases width' <;> simp_all
    | _ => cases kind
  | .block body => by
    have determined := Stmt.determined_mem body
    intro other rest rest' proper proper' same _ _
    have kind := Stmt.firstKind_eq same
    cases other with
    | block body' =>
      simp only [Stmt.proper, Stmt.listProper_iff] at proper proper'
      have braced : body.flatMap Stmt.lexemes ++ .mark .rightBrace :: rest =
          body'.flatMap Stmt.lexemes ++ .mark .rightBrace :: rest' := by
        simpa [Stmt.lexemes, Stmt.listLexemes_eq] using same
      obtain ⟨rfl, behind⟩ := separate_statements.cut
        (fun s member other rest rest' proper' same ends ends' =>
          determined s member (proper s member) proper' same (fun _ => ends) (fun _ => ends'))
        proper' braced (ends_cons.mpr rfl) (ends_cons.mpr rfl)
      exact ⟨rfl, (cons.inj behind).2⟩
    | _ => cases kind
  | .empty => by
    intro other rest rest' _ _ same _ _
    have kind := Stmt.firstKind_eq same
    cases other with
    | empty => exact ⟨rfl, by simpa [Stmt.lexemes] using same⟩
    | _ => cases kind

theorem Stmt.determined_mem : (body : List Stmt) → ∀ s ∈ body, s.Determined
  | [] => by simp
  | s :: body => forall_mem_cons.mpr ⟨s.determined, Stmt.determined_mem body⟩

end

/-! ## Declarations -/

def isBracket (l : Lexeme) : Bool := l == .mark .leftBracket

theorem TypeName.splits (t : TypeName) : Splits TypeName.lexemes isBracket t := by
  rintro t' r r' same ends ends'
  obtain ⟨name, _ | _⟩ := t <;> obtain ⟨name', _ | _⟩ := t' <;>
    simp only [TypeName.lexemes, Bool.false_eq_true, ↓reduceIte, cons_append, nil_append,
      cons.injEq, Lexeme.ident.injEq] at same
  · simpa using same
  · simp [same.2, isBracket] at ends
  · simp [← same.2, isBracket] at ends'
  · simpa using same

def isComma (l : Lexeme) : Bool := l == .mark .comma

private theorem separate_names : Separate (fun name : String => [.mark .comma, .ident name])
    (fun _ => false) isComma where
  starts _ := ⟨_, _, rfl, by decide, rfl⟩
  weaker _ impossible := by cases impossible

theorem VarDecl.splits (d : VarDecl) : Splits VarDecl.lexemes (fun _ => false) d := by
  rintro ⟨type', first', names'⟩ r r' same _ _
  obtain ⟨type, first, names⟩ := d
  simp only [VarDecl.lexemes, append_assoc, cons_append] at same
  obtain ⟨rfl, behind⟩ := type.splits same (ends_cons.mpr rfl) (ends_cons.mpr rfl)
  simp only [cons.injEq, Lexeme.ident.injEq] at behind
  obtain ⟨rfl, behind⟩ := behind
  obtain ⟨rfl, last⟩ := separate_names.splits
    (fun name _ name' rest rest' same _ _ => by simpa using same) behind (ends_cons.mpr rfl)
    (ends_cons.mpr rfl)
  exact ⟨rfl, (cons.inj last).2⟩

def isName (l : Lexeme) : Bool := l.kind == .ident

private theorem separate_varDecls : Separate VarDecl.lexemes (fun _ => false) isName where
  starts _ := ⟨_, _, rfl, rfl, rfl⟩
  weaker _ impossible := by cases impossible

theorem Literal.lexeme_injective {a b : Literal} (same : a.lexeme = b.lexeme) : a = b := by
  cases a <;> cases b <;> simp_all [Literal.lexeme]

theorem Decl.splits (d : Decl) : Splits Decl.lexemes (fun _ => false) d := by
  rintro d' r r' same ends ends'
  cases d with
  | const type name literal =>
    cases d' with
    | const type' name' literal' =>
      simp only [Decl.lexemes, append_assoc, cons_append, cons.injEq, true_and] at same
      obtain ⟨rfl, behind⟩ := type.splits same (ends_cons.mpr rfl) (ends_cons.mpr rfl)
      simp only [cons.injEq, Lexeme.ident.injEq, true_and, nil_append] at behind
      obtain ⟨rfl, sameLiteral, rfl⟩ := behind
      rw [Literal.lexeme_injective sameLiteral]
      exact ⟨rfl, rfl⟩
    | vars d' => cases (cons.inj same).1
    | classDecl name' fields' => cases (cons.inj same).1
  | vars d =>
    cases d' with
    | const type' name' literal' => cases (cons.inj same).1
    | vars d' =>
      obtain ⟨rfl, rfl⟩ := d.splits same ends ends'
      exact ⟨rfl, rfl⟩
    | classDecl name' fields' => cases (cons.inj same).1
  | classDecl name fields =>
    cases d' with
    | const type' name' literal' => cases (cons.inj same).1
    | vars d' => cases (cons.inj same).1
    | classDecl name' fields' =>
      simp only [Decl.lexemes, append_assoc, cons_append, nil_append, cons.injEq,
        true_and, Lexeme.ident.injEq] at same
      obtain ⟨rfl, same⟩ := same
      obtain ⟨rfl, last⟩ := separate_varDecls.splits (fun d _ => d.splits) same (ends_cons.mpr rfl)
        (ends_cons.mpr rfl)
      exact ⟨rfl, (cons.inj last).2⟩

private theorem separate_decls :
    Separate Decl.lexemes (fun _ => false) (· != .mark .leftBrace) where
  starts d := by cases d <;> exact ⟨_, _, rfl, rfl, rfl⟩
  weaker _ impossible := by cases impossible

theorem Parameter.splits (p : Parameter) : Splits Parameter.lexemes (fun _ => false) p := by
  rintro ⟨type', name'⟩ r r' same _ _
  obtain ⟨type, name⟩ := p
  simp only [Parameter.lexemes, append_assoc] at same
  obtain ⟨rfl, behind⟩ := type.splits same (ends_cons.mpr rfl) (ends_cons.mpr rfl)
  simpa using behind

private theorem separate_parameters : Separate (fun p : Parameter => .mark .comma :: p.lexemes)
    (fun _ => false) isComma where
  starts _ := ⟨_, _, rfl, by decide, rfl⟩
  weaker _ impossible := by cases impossible

/-- The parameters of a method up to the closing parenthesis. -/
theorem Parameters.splits_paren {ps ps' : Option Parameters}
    (same : ps.elim [] Parameters.lexemes ++ .mark .rightParen :: rest =
      ps'.elim [] Parameters.lexemes ++ .mark .rightParen :: rest') : ps = ps' ∧ rest = rest' := by
  cases ps with
  | none =>
    cases ps' with
    | none => simpa using same
    | some ps' => cases (cons.inj same).1
  | some ps =>
    cases ps' with
    | none => cases (cons.inj same).1
    | some ps' =>
      obtain ⟨first, others, variadic⟩ := ps
      obtain ⟨first', others', variadic'⟩ := ps'
      have splits := first.splits.followedBy separate_parameters
        fun p (_ : p ∈ others) => p.splits.cons _
      have stops (variadic : Bool) (rest : List Lexeme) : Ends isComma
          ((if variadic then [.mark .ellipsis] else []) ++ .mark .rightParen :: rest) := by
        cases variadic <;> exact ends_cons.mpr rfl
      simp only [Option.elim, Parameters.lexemes] at same
      obtain ⟨phrase, behind⟩ := splits (b := (first', others'))
        (by simpa only [append_assoc] using same) (stops variadic rest) (stops variadic' rest')
      obtain ⟨rfl, rfl⟩ := Prod.mk.inj phrase
      cases variadic <;> cases variadic' <;> simp_all

/-- The result type of a method. -/
theorem TypeName.splits_result {n n' : Option TypeName}
    (same : n.elim [.keyword .voidKw] TypeName.lexemes ++ rest =
      n'.elim [.keyword .voidKw] TypeName.lexemes ++ rest') (ends : Ends isBracket rest)
    (ends' : Ends isBracket rest') : n = n' ∧ rest = rest' := by
  cases n with
  | none =>
    cases n' with
    | none => simpa using same
    | some n' => cases (cons.inj same).1
  | some n =>
    cases n' with
    | none => cases (cons.inj same).1
    | some n' =>
      obtain ⟨rfl, rfl⟩ := n.splits same ends ends'
      exact ⟨rfl, rfl⟩

theorem Method.determined {m m' : Method} (proper : Stmt.listProper m.body = true)
    (proper' : Stmt.listProper m'.body = true) (same : m.lexemes ++ rest = m'.lexemes ++ rest') :
    m = m' ∧ rest = rest' := by
  obtain ⟨result, name, parameters, locals, body⟩ := m
  obtain ⟨result', name', parameters', locals', body'⟩ := m'
  simp only [Method.lexemes, append_assoc, cons_append, nil_append] at same
  obtain ⟨rfl, same1⟩ := TypeName.splits_result same (ends_cons.mpr rfl) (ends_cons.mpr rfl)
  simp only [cons.injEq, Lexeme.ident.injEq, true_and] at same1
  obtain ⟨rfl, same1⟩ := same1
  obtain ⟨rfl, same2⟩ := Parameters.splits_paren same1
  obtain ⟨rfl, same3⟩ := separate_varDecls.splits (fun d _ => d.splits) same2 (ends_cons.mpr rfl)
    (ends_cons.mpr rfl)
  simp only [cons.injEq, true_and, Stmt.listLexemes_eq] at same3
  obtain ⟨rfl, last⟩ := separate_statements.cut
    (fun s member other rest rest' proper' same ends ends' =>
      s.determined (Stmt.listProper_iff.mp proper s member) proper' same (fun _ => ends)
        (fun _ => ends'))
    (Stmt.listProper_iff.mp proper') same3 (ends_cons.mpr rfl) (ends_cons.mpr rfl)
  exact ⟨rfl, (cons.inj last).2⟩

private theorem separate_methods :
    Separate Method.lexemes (fun _ => false) (· != .mark .rightBrace) where
  starts m := by
    obtain ⟨_ | _, name, parameters, locals, body⟩ := m <;> exact ⟨_, _, rfl, rfl, rfl⟩
  weaker _ impossible := by cases impossible

/-- A program whose every `else` belongs to the nearest `if` is determined by its lexemes. -/
theorem Program.eq_of_lexemes {p p' : Program} (proper : p.proper = true)
    (proper' : p'.proper = true) (same : p.lexemes = p'.lexemes) : p = p' := by
  obtain ⟨name, decls, methods⟩ := p
  obtain ⟨name', decls', methods'⟩ := p'
  simp only [Program.lexemes, append_assoc, cons_append, nil_append, cons.injEq,
    true_and, Lexeme.ident.injEq] at same
  obtain ⟨rfl, same⟩ := same
  obtain ⟨rfl, behind⟩ := separate_decls.splits (fun d _ => d.splits) same (ends_cons.mpr rfl)
    (ends_cons.mpr rfl)
  simp only [Program.proper, all_eq_true] at proper proper'
  obtain ⟨rfl, _⟩ := separate_methods.cut
    (fun m member m' rest rest' proper' same _ _ => Method.determined (proper m member) proper' same)
    proper' (cons.inj behind).2 (ends_cons.mpr rfl) (ends_cons.mpr rfl)
  rfl

/-- A source text is written as one program only. -/
theorem Program.IsTreeOf.unique {p p' : Program} {source : List Char} (tree : p.IsTreeOf source)
    (tree' : p'.IsTreeOf source) : p = p' :=
  Program.eq_of_lexemes tree.2 tree'.2 (append_cancel_right (tree.1.symm.trans tree'.1))

end MicroJava.Syntax

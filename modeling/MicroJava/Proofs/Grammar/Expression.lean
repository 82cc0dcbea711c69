import MicroJava.Proofs.Grammar.Basic
import MicroJava.Proofs.Progress.Source

/-! # Expressions and conditions follow the grammar

Each action for a part of an expression parses every such part, wherever it is followed by something
that does not continue it.
-/

namespace MicroJava

open Lexeme Syntax Compile

variable {α β : Type} {nested : Compile Operand} {s : Compiler} {x : Operand}
  {rest rest' : List Lexeme}

/-- No mark comes next that would continue the phrase before. -/
theorem Syntax.Ends.not_mark {continues : Lexeme → Bool} (ends : Ends continues rest) {m : Mark}
    (goesOn : continues (.mark m) = true) : ∀ l ∈ rest.head?, l.kind ≠ .mark m := by
  intro l next found
  have stops := ends l next
  rw [lexeme_of_kind_mark found, goesOn] at stops
  cases stops

namespace Compile

/-- Whether an action parses every expression. -/
class ParsesExpr (nested : Compile Operand) : Prop extends Steady nested where
  parses : ∀ (e : Expr) (rest : List Lexeme), Ends Lexeme.continuesExpr rest →
    Parsing nested (e.lexemes ++ rest) rest

instance : Follows continuesExpr (.mark .rightBracket :: rest) := ⟨ends_cons.mpr rfl⟩

instance : Follows continuesExpr (.mark .rightParen :: rest) := ⟨ends_cons.mpr rfl⟩

instance : Follows continuesExpr (.mark .semicolon :: rest) := ⟨ends_cons.mpr rfl⟩

instance : Follows continuesDisjunction (.mark .rightParen :: rest) := ⟨ends_cons.mpr rfl⟩

instance : Inhabited Expr := ⟨.mk false (.mk (.number 0) []) []⟩

instance : Inhabited VarArguments := ⟨.mk 0 []⟩

instance : Inhabited Arguments := ⟨.mk [] none⟩

section

variable [inner : ParsesExpr nested]

instance (e : Expr) [follows : Follows continuesExpr rest] :
    Parsing nested (e.lexemes ++ rest) rest := inner.parses e rest follows.ends

/-! ## Designators -/

omit inner in
instance {name : String} : Parsing (fieldSelector x) ([.mark .period, .ident name] ++ rest) rest := by
  unfold fieldSelector
  infer_instance

instance (e : Expr) : Parsing (indexSelector nested x)
    (.mark .leftBracket :: e.lexemes ++ [.mark .rightBracket] ++ rest) rest := by
  unfold indexSelector
  repeat with_reducible refine .step fun _ => ?_
  infer_instance

theorem selector_parses (selector_ : Selector) (starts : startsSelector s.tokens.peek.kind = true) :
    Parses (selector nested x) s (selector_.lexemes ++ rest) rest := by
  refine (selector_reads starts).facing fun faces => .lookahead ?_
  cases selector_ with
  | field name =>
    rw [faces.kind, if_pos (by rfl), Selector.lexemes]
    exact Parsing.parses s
  | index e =>
    rw [Selector.lexemes] at faces ⊢
    rw [faces.kind, if_neg (by simp [kind])]
    exact Parsing.parses s

private theorem startsSelector_kind (l : Lexeme) :
    startsSelector l.kind = continuesDesignator l := by
  rw [Bool.eq_iff_iff]
  cases l <;> simp [startsSelector, continuesDesignator, kind]

instance (d : Designator) [follows : Follows continuesDesignator rest] :
    Parsing (designator nested) (d.lexemes ++ rest) rest := by
  obtain ⟨name, selectors⟩ := d
  rw [Designator.lexemes, Selector.listLexemes_eq]
  refine .step fun name => .step fun x => ⟨fun s => ?_⟩
  refine repeatWhile_parses (selector nested) (fun _ => false) rfl
    (fun x s more => selector_reads more) (fun selector_ _ => ?_)
    (fun selector_ _ x s rest more _ => selector_parses selector_ more) ?_ (fun _ _ => rfl)
  · obtain ⟨l, more, begins, continues, _⟩ := separate_selectors.starts selector_
    exact ⟨l, more, begins, by rw [startsSelector_kind]; exact continues, rfl⟩
  · simpa only [startsSelector_kind] using follows.ends

/-! ## Calls -/

instance (e : Expr) (state : Nat × List EntityId) [Follows continuesExpr rest] :
    Parsing (argument nested state) (e.lexemes ++ rest) rest := by
  unfold argument
  obtain ⟨count, _ | ⟨parameter, parameters⟩⟩ := state <;> infer_instance

instance (e : Expr) (state : Nat × TypeId) [Follows continuesExpr rest] :
    Parsing (varArgument nested state) (e.lexemes ++ rest) rest := by
  unfold varArgument
  repeat with_reducible refine .step fun _ => ?_
  infer_instance

omit inner in
theorem startsExpression_kind (l : Lexeme) : l.kind.startsExpression = l.startsExpr := by
  rw [Bool.eq_iff_iff]
  cases l with
  | mark m => cases m <;> decide
  | keyword k => cases k <;> decide
  | ident | number | charConst | unknown | eof => exact Iff.rfl

omit inner in
private theorem continuesList_comma (l : Lexeme) (comma : (l == .mark .comma) = true) :
    continuesList l = true := by
  rw [eq_of_beq comma]
  rfl

omit inner in
private theorem continuesList_expr (l : Lexeme) (continues : l.continuesExpr = true) :
    continuesList l = true := by
  simp [continuesList, continues]

omit inner in
theorem expressionList_parses {item : α → Compile α} [∀ a, Steady (item a)]
    (each : ∀ (e : Expr) a rest [Follows continuesExpr rest],
      Parsing (item a) (e.lexemes ++ rest) rest) {a : α} {es : List Expr}
    (ends : Ends continuesList rest) :
    Parsing (expressionList item a) (Expr.listLexemes es ++ rest) rest := by
  have list (e : Expr) (es : List Expr) : Parsing (commaSeparated item a)
      (e.lexemes ++ ((es.flatMap fun e => .mark .comma :: e.lexemes) ++ rest)) rest :=
    ⟨fun s => commaSeparated_parses Expr.lexemes _ rfl
      (fun e _ a s rest ends => (@each e a rest ⟨ends⟩).parses s) (ends.mono continuesList_comma)
      (ends.mono continuesList_expr)⟩
  have lexemes : Expr.listLexemes es = (es.head?.map fun e => (e, es.tail)).elim []
      fun phrase => Expr.listLexemes (phrase.1 :: phrase.2) := by
    cases es <;> rfl
  rw [lexemes]
  refine .optional _ _ (fun phrase => ?_) (fun _ l next starts => ?_) ?_ inferInstance
  · obtain ⟨l, more, begins, starts⟩ := phrase.1.begins
    rw [Expr.listLexemes, begins]
    exact ⟨l, _, rfl, (startsExpression_kind l).trans starts⟩
  · have stops := ends l next
    rw [startsExpression_kind] at starts
    simp [continuesList, starts] at stops
  · rw [Expr.listLexemes, Expr.tailLexemes_eq]
    infer_instance

instance (elem : TypeId) (values : VarArguments) :
    Parsing (varArguments nested elem) (values.lexemes ++ .mark .rightParen :: rest)
      (.mark .rightParen :: rest) := by
  obtain ⟨size, es⟩ := values
  rw [VarArguments.lexemes]
  have list (a) : Parsing (expressionList (varArgument nested) a)
      (Expr.listLexemes es ++ .mark .rightParen :: rest) _ :=
    expressionList_parses (fun e a rest _ => inferInstance) (ends_cons.mpr rfl)
  unfold varArguments
  repeat with_reducible refine .step fun _ => ?_
  infer_instance

instance (called : Bool) (elem : Option TypeId) (extra : Option VarArguments) :
    Parsing (collectArguments nested called elem)
      (extra.elim [] VarArguments.lexemes ++ .mark .rightParen :: rest)
      (.mark .rightParen :: rest) := by
  refine .optional VarArguments.lexemes extra (fun values => ?_) (by simp [kind]) inferInstance ?_
  · obtain ⟨size, es⟩ := values
    exact ⟨_, _, rfl, rfl⟩
  · cases elem <;> infer_instance

instance (args : Arguments) : Parsing (arguments nested x) (args.lexemes ++ rest) rest := by
  obtain ⟨fixed, extra⟩ := args
  have lexemes : (Arguments.mk fixed extra).lexemes ++ rest = .mark .leftParen ::
      (Expr.listLexemes fixed ++
        (extra.elim [] VarArguments.lexemes ++ .mark .rightParen :: rest)) := by
    cases extra <;> simp [Arguments.lexemes]
  have ends : Ends continuesList (extra.elim [] VarArguments.lexemes ++ .mark .rightParen :: rest) := by
    cases extra with
    | none => exact ends_cons.mpr rfl
    | some values =>
      obtain ⟨size, es⟩ := values
      rw [Option.elim_some, VarArguments.lexemes]
      exact ends_cons.mpr rfl
  have list (a) : Parsing (expressionList (argument nested) a) (Expr.listLexemes fixed ++ _) _ :=
    expressionList_parses (fun e a rest _ => inferInstance) ends
  rw [lexemes]
  unfold arguments
  repeat with_reducible refine .step fun _ => ?_
  infer_instance

instance (args : Arguments) : Parsing (methodCall nested x) (args.lexemes ++ rest) rest := by
  unfold methodCall
  infer_instance

/-! ## Factors -/

theorem newObject_parses (type : String) (size : Option Expr) (ends : Ends continuesFactor rest) :
    Parsing (newObject nested) (.keyword .newKw :: .ident type ::
      (size.elim [] (fun e => .mark .leftBracket :: (e.lexemes ++ [.mark .rightBracket])) ++ rest))
      rest := by
  refine .step fun _ => .step fun name => .step fun _ => .step fun entity => ?_
  refine .optional _ size (fun e => ⟨_, _, rfl, rfl⟩) (fun _ => ends.not_mark rfl) inferInstance
    inferInstance

theorem designatorFactor_parses (d : Designator) (call : Option Arguments)
    (ends : Ends continuesFactor rest) :
    Parsing (designatorFactor nested) (d.lexemes ++ (call.elim [] Arguments.lexemes ++ rest))
      rest := by
  have : Follows continuesDesignator (call.elim [] Arguments.lexemes ++ rest) := by
    cases call with
    | none => exact ⟨ends.mono designator_factor⟩
    | some args => exact ⟨ends_arguments args rest⟩
  refine .step fun x => .optional Arguments.lexemes call (fun args => ?_) (fun _ => ends.not_mark rfl)
    inferInstance inferInstance
  obtain ⟨more, begins⟩ := args.begins
  exact ⟨_, more, begins, rfl⟩

theorem factor_parses (f : Factor) (ends : Ends continuesFactor rest) :
    Parsing (factor nested) (f.lexemes ++ rest) rest := by
  refine ⟨fun s => .facing fun faces => .lookahead ?_⟩
  have named {d : Designator} {more : List Lexeme} (faces : s.Faces (d.lexemes ++ more)) :
      s.tokens.peek.kind = .ident := by
    obtain ⟨name, selectors⟩ := d
    rw [Designator.lexemes, List.cons_append] at faces
    exact faces.kind
  cases f with
  | value d =>
    rw [Factor.lexemes] at faces ⊢
    rw [named faces]
    exact (designatorFactor_parses d none ends).parses s
  | call d args =>
    rw [Factor.lexemes, List.append_assoc] at faces ⊢
    rw [named faces]
    exact (designatorFactor_parses d (some args) ends).parses s
  | number value | character value =>
    rw [faces.kind, Factor.lexemes]
    dsimp only [kind]
    exact Parsing.parses s
  | object type =>
    rw [faces.kind]
    exact (newObject_parses type none ends).parses s
  | array type size =>
    have lexemes : (Factor.array type size).lexemes ++ rest = .keyword .newKw :: .ident type ::
        ((some size).elim [] (fun e => .mark .leftBracket :: (e.lexemes ++ [.mark .rightBracket])) ++
          rest) := by
      simp [Factor.lexemes]
    rw [lexemes] at faces ⊢
    rw [faces.kind]
    exact (newObject_parses type (some size) ends).parses s
  | paren e =>
    rw [Factor.lexemes] at faces ⊢
    rw [faces.kind]
    dsimp only [kind]
    exact Parsing.parses s

/-! ## Terms and sums -/

omit inner in
/-- Operators with operands after an operand. -/
theorem binaryChain_parses {φ Op : Type} {operation? : TokenKind → Option Opcode}
    {item : Compile Operand} {lexemes : φ → List Lexeme} {mark : Op → Mark}
    {continues outer : Lexeme → Bool} (ends : operation? .eof = none) [Steady item]
    (each : ∀ (i : φ) rest, Ends continues rest → Parsing item (lexemes i ++ rest) rest)
    (known : ∀ op, (operation? (.mark (mark op))).isSome = true)
    (separate : Separate (fun entry : Op × φ => .mark (mark entry.1) :: lexemes entry.2) continues
      outer) (goesOn : ∀ l : Lexeme, (operation? l.kind).isSome = true → outer l = true)
    (entries : List (Op × φ)) (follows : Ends outer rest) :
    Parsing (binaryChain operation? item x)
      ((entries.flatMap fun entry => .mark (mark entry.1) :: lexemes entry.2) ++ rest) rest := by
  refine ⟨fun s => repeatWhile_parses (operation operation? item) continues (by simp [ends])
    (fun x s more => operation_reads ends more) (fun entry _ => ?_)
    (fun entry _ x s rest more follows => ?_) (follows.mono goesOn) (follows.mono separate.weaker)⟩
  · obtain ⟨l, more, begins, _, stops⟩ := separate.starts entry
    obtain ⟨rfl, rfl⟩ := List.cons.inj begins
    exact ⟨_, _, rfl, known entry.1, stops⟩
  · refine (operation_reads ends more).facing fun faces => .lookahead ?_
    obtain ⟨op, found⟩ := Option.isSome_iff_exists.mp (known entry.1)
    have kind : s.tokens.peek.kind = .mark (mark entry.1) := faces.kind
    rw [kind, found]
    have := each entry.2 rest follows
    dsimp only
    exact Parsing.parses s

omit inner in
private theorem continuesTerm_of_operation (l : Lexeme)
    (found : (mulOperation? l.kind).isSome = true) :
    l.continuesTerm = true := by
  cases l with
  | mark m => cases m <;> first | rfl | cases found
  | keyword | ident | number | charConst | unknown | eof => cases found

omit inner in
private theorem continuesExpr_of_operation (l : Lexeme)
    (found : (addOperation? l.kind).isSome = true) :
    l.continuesExpr = true := by
  cases l with
  | mark m => cases m <;> first | rfl | cases found
  | keyword | ident | number | charConst | unknown | eof => cases found

theorem term_parses (e : Term) (ends : Ends continuesTerm rest) :
    Parsing (term nested) (e.lexemes ++ rest) rest := by
  obtain ⟨first, others⟩ := e
  rw [Term.lexemes, Factor.chainLexemes_eq]
  have : Parsing (factor nested) (first.lexemes ++ _) _ :=
    factor_parses first (separate_factors.ends others ends)
  refine .step fun x => binaryChain_parses rfl (fun f rest => factor_parses f)
    (fun op => by cases op <;> rfl) separate_factors continuesTerm_of_operation others ends

theorem sum_parses (e : Expr) (ends : Ends continuesExpr rest) :
    Parsing (sum nested) (e.lexemes ++ rest) rest := by
  obtain ⟨negated, first, others⟩ := e
  have chain (x : Operand) : Parsing (binaryChain addOperation? (term nested) x)
      (Term.chainLexemes others ++ rest) rest := by
    rw [Term.chainLexemes_eq]
    exact binaryChain_parses rfl (fun e rest => term_parses e) (fun op => by cases op <;> rfl)
      separate_terms continuesExpr_of_operation others ends
  have follows : Ends continuesTerm (Term.chainLexemes others ++ rest) := by
    rw [Term.chainLexemes_eq]
    exact separate_terms.ends others ends
  have : Parsing (term nested) (first.lexemes ++ _) _ := term_parses first follows
  have lexemes : (Expr.mk negated first others).lexemes ++ rest =
      (if negated then some () else none).elim [] (fun _ => [.mark .minus]) ++
        (first.lexemes ++ (Term.chainLexemes others ++ rest)) := by
    cases negated <;> simp [Expr.lexemes]
  rw [lexemes]
  refine .optional _ _ (fun _ => ⟨_, _, rfl, rfl⟩) ?_ inferInstance inferInstance
  obtain ⟨l, more, begins, starts⟩ := first.begins
  rw [begins]
  rintro _ _ ⟨rfl⟩ minus
  rw [lexeme_of_kind_mark minus] at starts
  cases starts

omit inner in
theorem deepExpression_parses {text : List Lexeme} : Parses deepExpression s text rest :=
  report_parses rfl

omit inner in
instance (levels : Nat) : ParsesExpr (expression levels) where
  parses := by
    induction levels with
    | zero => exact fun _ _ _ => ⟨fun _ => deepExpression_parses⟩
    | succ levels ih =>
      have : ParsesExpr (expression levels) := ⟨ih⟩
      exact fun e rest ends =>
        ⟨fun s => deeper_parses deepExpression_parses ((sum_parses e ends).parses _)⟩

/-! ## Conditions -/

omit inner in
private theorem relation?_mark (op : Comparison) :
    relation? (.mark (relationMark op)) = some op := by
  cases op <;> rfl

omit inner in
instance (op : Comparison) : Parsing relation (.mark (relationMark op) :: rest) rest := by
  refine ⟨fun s => .facing fun faces => .lookahead ?_⟩
  have kind : s.tokens.peek.kind = .mark (relationMark op) := faces.kind
  rw [kind, relation?_mark]
  exact Parsing.parses s

instance (c : Compare) [Follows continuesExpr rest] :
    Parsing (comparison nested) (c.lexemes ++ rest) rest := by
  rw [Compare.lexemes]
  have : Follows continuesExpr
      (.mark (relationMark c.relation) :: (c.right.lexemes ++ rest)) := by
    refine ⟨ends_cons.mpr ?_⟩
    cases c.relation <;> rfl
  unfold comparison
  infer_instance

theorem conjunction_parses (c : Conjunction) (ends : Ends continuesConjunction rest) :
    Parsing (conjunction nested) (c.lexemes ++ rest) rest := by
  obtain ⟨first, others⟩ := c
  rw [Conjunction.lexemes]
  have : Follows continuesExpr _ := ⟨separate_compares.ends others ends⟩
  refine .step fun op => ⟨fun s => ?_⟩
  refine repeatWhile_parses (nextComparison nested) continuesExpr rfl
    (fun x s more => nextComparison_reads x (by simpa using more))
    (fun c _ => ⟨_, _, rfl, rfl, rfl⟩) (fun c _ x s rest _ follows => ?_)
    (ends.mono fun l found => ?_) (ends.mono separate_compares.weaker)
  · have : Follows continuesExpr rest := ⟨follows⟩
    unfold nextComparison
    exact Parsing.parses s
  · rw [kind_beq_mark] at found
    simp [continuesConjunction, found]

instance (c : Disjunction) [follows : Follows continuesDisjunction rest] :
    Parsing (condition nested) (c.lexemes ++ rest) rest := by
  obtain ⟨first, others⟩ := c
  rw [Disjunction.lexemes]
  have ends := follows.ends
  have : Parsing (conjunction nested) (first.lexemes ++ _) _ :=
    conjunction_parses first (separate_conjunctions.ends others ends)
  refine .step fun op => ⟨fun s => ?_⟩
  refine repeatWhile_parses (nextAlternative nested) continuesConjunction rfl
    (fun x s more => nextAlternative_reads x (by simpa using more))
    (fun c _ => ⟨_, _, rfl, rfl, rfl⟩) (fun c _ x s rest _ follows => ?_)
    (ends.mono fun l found => ?_) (ends.mono separate_conjunctions.weaker)
  · have : Parsing (conjunction nested) (c.lexemes ++ rest) rest := conjunction_parses c follows
    unfold nextAlternative
    exact Parsing.parses s
  · rw [kind_beq_mark] at found
    simp [continuesDisjunction, found]

instance (c : Disjunction) [Follows continuesDisjunction rest]
    [Parsing (expect (.mark .rightParen)) rest rest'] :
    Parsing (guarded nested) (c.lexemes ++ rest) rest' := by
  unfold guarded
  infer_instance

end

end Compile

end MicroJava

import MicroJava.Proofs.Progress.Basic
import MicroJava.Proofs.Progress.Parts
import MicroJava.Proofs.Run.Source

/-! # Every action moves on

No action but the last one of a compilation consumes the end of the source, and each run of each
repetition consumes a token. So a source text is compiled in one step for every token.
-/

namespace MicroJava

open Reporter

namespace Compile

variable {α : Type} {nested expr : Compile Operand} {stmt : Compile Unit} {s : Compiler}
  {x : Operand} {p : Prop}

/-! ## Expressions -/

theorem fieldSelector_reads (period : s.tokens.peek.kind = .mark .period) :
    Reads (fieldSelector x) s p := by
  refine .skip fun _ s1 same1 => .skip fun _ s2 same2 => ?_
  refine (scan_reads (by simp [same2, same1, period])).step fun _ => ?_
  repeat with_reducible refine .step fun _ => ?_
  infer_instance

section

variable [Steady nested] {operation? : TokenKind → Option Opcode}

theorem indexSelector_reads (bracket : s.tokens.peek.kind = .mark .leftBracket) :
    Reads (indexSelector nested x) s p := by
  refine .skip fun _ s1 same => (scan_reads (by simp [same, bracket])).step fun _ => ?_
  repeat with_reducible refine .step fun _ => ?_
  infer_instance

theorem selector_reads (starts : startsSelector s.tokens.peek.kind = true) :
    Reads (selector nested x) s p := by
  simp only [startsSelector, Bool.or_eq_true, beq_iff_eq] at starts
  refine .lookahead ?_
  split
  · next period => exact fieldSelector_reads period
  · next other => exact indexSelector_reads (starts.resolve_left other)

theorem designator_reads (sure : p → s.tokens.peek.kind = .ident) :
    Reads (designator nested) s p := by
  refine (expectName_reads sure).bind fun name s1 => .skip fun x s2 _ => ?_
  exact repeatWhile_reads rfl fun x s starts => selector_reads starts

instance : Steady (designator nested) := ⟨fun _ => designator_reads False.elim⟩

instance (state : Nat × List EntityId) : Steady (argument nested state) := by
  unfold argument
  obtain ⟨count, _ | ⟨parameter, parameters⟩⟩ := state <;> infer_instance

instance (state : Nat × TypeId) : Steady (varArgument nested state) := by
  unfold varArgument
  repeat with_reducible refine .step fun _ => ?_
  infer_instance

omit [Steady nested] in
instance {β : Type} {item : β → Compile β} [∀ b, Steady (item b)] (b : β) :
    Steady (expressionList item b) := by
  unfold expressionList
  infer_instance

instance (elem : TypeId) : Steady (varArguments nested elem) where
  reads s := by
    refine (Steady.reads s).bind fun _ s1 => (Steady.reads s1).bind fun _ s2 => ?_
    exact .previous (fun _ _ => rfl) (Steady.reads s2)

omit [Steady nested] in
instance {allowed : Reporter → Reporter → Prop} [Permits allowed] (method : Option EntityId) :
    Still allowed (askParameters method) := by
  cases method <;> unfold askParameters <;> infer_instance

omit [Steady nested] in
instance {allowed : Reporter → Reporter → Prop} [Permits allowed] (parameter : Option EntityId) :
    Still allowed (askCollected parameter) := by
  cases parameter <;> unfold askCollected <;> infer_instance

instance (called : Bool) (elem : Option TypeId) : Steady (collectArguments nested called elem) := by
  cases elem <;> unfold collectArguments <;> infer_instance

instance : Steady (arguments nested x) := by
  unfold arguments
  repeat with_reducible refine .step fun _ => ?_
  infer_instance

instance : Steady (methodCall nested x) := by
  unfold methodCall
  infer_instance

instance : Steady (newObject nested) := by
  unfold newObject
  refine .step fun _ => .step fun _ => .step fun _ => .step fun entity => ?_
  refine @Steady.scanMark _ _ _ _ (fun _ _ => ?_) fun _ => ?_
  all_goals
    repeat with_reducible refine .step fun _ => ?_
    infer_instance

instance : Steady (designatorFactor nested) := by
  unfold designatorFactor
  repeat with_reducible refine .step fun _ => ?_
  infer_instance

instance : Steady (factor nested) where
  reads s := by
    refine .lookahead ?_
    split
    · exact Steady.reads s
    · next number =>
      exact (scan_reads (by simp [number])).bind fun _ s1 => .previous (fun _ _ => rfl) (.still id)
    · next character =>
      exact (scan_reads (by simp [character])).bind fun _ s1 => .previous (fun _ _ => rfl) (.still id)
    · exact Steady.reads s
    · next paren => exact (scan_reads (by simp [paren])).andThen
    · exact Steady.reads s

theorem operation_reads (ends : operation? .eof = none)
    (more : (operation? s.tokens.peek.kind).isSome = true) :
    Reads (operation operation? nested x) s p := by
  refine .lookahead ?_
  split
  · next none => simp [none] at more
  · next op found =>
    refine .skip fun x s1 same => (scan_reads ?_).andThen
    intro ended
    rw [same] at ended
    simp [ended, ends] at found

theorem binaryChain_reads (ends : operation? .eof = none) :
    Reads (binaryChain operation? nested x) s False :=
  repeatWhile_reads (by simp [ends]) fun _ _ more => operation_reads ends more

instance : Steady (binaryChain mulOperation? nested x) :=
  ⟨fun _ => binaryChain_reads rfl⟩

instance : Steady (binaryChain addOperation? nested x) :=
  ⟨fun _ => binaryChain_reads rfl⟩

instance : Steady (term nested) := by
  unfold term
  infer_instance

omit [Steady nested] in
instance {allowed : Reporter → Reporter → Prop} [Permits allowed] :
    Still allowed (negate x) := by
  unfold negate
  infer_instance

instance : Steady (sum nested) := by
  unfold sum
  infer_instance

end

instance deepExpression_steady : Steady deepExpression := by
  unfold deepExpression
  infer_instance

instance (levels : Nat) : Steady (expression levels) := by
  induction levels with
  | zero => exact deepExpression_steady
  | succ levels ih => exact ⟨fun s => deeper_reads (Steady.reads s) (Steady.reads _)⟩

theorem expression_reads (levels : Nat) (s : Compiler) : Reads (expression levels) s False :=
  Steady.reads s

/-! ## Statements -/

instance : Steady relation where
  reads s := by
    refine .lookahead ?_
    split
    · next found =>
      refine (scan_reads fun ended => ?_).andThen
      simp [ended, relation?] at found
    · exact .still id

section

variable [Steady expr]

instance : Steady (comparison expr) := by
  unfold comparison
  repeat with_reducible refine .step fun _ => ?_
  infer_instance

theorem nextComparison_reads (x : Condition) (more : s.tokens.peek.kind = .mark .andAnd) :
    Reads (nextComparison expr x) s p :=
  Reads.skip fun _ _ same => (scan_reads (by simp [same, more])).andThen

instance : Steady (conjunction expr) where
  reads s := (Steady.reads s).bind fun _ _ =>
    repeatWhile_reads rfl fun x s more => nextComparison_reads x (by simpa using more)

theorem nextAlternative_reads (x : Condition) (more : s.tokens.peek.kind = .mark .orOr) :
    Reads (nextAlternative expr x) s p :=
  Reads.skip fun _ _ same => (scan_reads (by simp [same, more])).andThen

instance : Steady (condition expr) where
  reads s := (Steady.reads s).bind fun _ _ =>
    repeatWhile_reads rfl fun x s more => nextAlternative_reads x (by simpa using more)

instance : Steady (guarded expr) := by
  unfold guarded
  infer_instance

theorem assignment_reads (more : s.tokens.peek.kind ≠ .eof) : Reads (assignment expr x) s p := by
  refine (scan_reads more).step fun _ => ?_
  repeat with_reducible refine .step fun _ => ?_
  infer_instance

theorem compoundAssignment_reads (op : Opcode) (more : s.tokens.peek.kind ≠ .eof) :
    Reads (compoundAssignment expr x op) s p := by
  refine (scan_reads more).step fun _ => ?_
  repeat with_reducible refine .step fun _ => ?_
  infer_instance

instance : Steady (callStatement expr x) := by
  unfold callStatement
  infer_instance

instance : Steady (designatorUse expr x) where
  reads s := by
    refine .lookahead ?_
    split
    · next assign => exact assignment_reads (by simp [assign])
    · exact Steady.reads s
    · next step => exact .skip fun _ s1 same => scan_reads (by simp [same, step])
    · next step => exact .skip fun _ s1 same => scan_reads (by simp [same, step])
    · split
      · next found =>
        refine compoundAssignment_reads _ fun ended => ?_
        simp [ended, assignOperation?] at found
      · exact .still id

theorem designatorStatement_reads (sure : p → s.tokens.peek.kind = .ident) :
    Reads (designatorStatement expr) s p := (designator_reads sure).andThen

theorem ifStatement_reads [Steady stmt] (mark : s.tokens.peek.kind = .keyword .ifKw) :
    Reads (ifStatement stmt expr) s p := by
  refine (scan_reads (by simp [mark])).bind fun _ s1 => (Steady.reads s1).bind fun _ s2 => ?_
  refine (Steady.reads s2).bind fun onFalse s3 => (Steady.reads s3).bind fun _ s4 => ?_
  refine .lookahead ?_
  split
  · next isElse =>
    refine .skip fun finish s5 same5 => .skip fun _ s6 same6 => ?_
    exact (scan_reads (by simp [same6, same5, isElse])).andThen
  · exact .still id

omit [Steady expr] in
instance [inner : Steady stmt] : Steady (inLoop stmt) where
  reads s := by
    refine .skip fun _ s1 _ => (inner.reads s1).bind fun _ s2 => .get (fun _ _ => rfl) ?_
    split <;> exact .still id

theorem whileStatement_reads [Steady stmt] (mark : s.tokens.peek.kind = .keyword .whileKw) :
    Reads (whileStatement stmt expr) s p := by
  refine (scan_reads (by simp [mark])).step fun _ => ?_
  repeat with_reducible refine .step fun _ => ?_
  infer_instance

omit [Steady expr] in
theorem breakStatement_reads (mark : s.tokens.peek.kind = .keyword .breakKw) :
    Reads breakStatement s p := by
  refine (scan_reads (by simp [mark])).bind fun _ s1 => .get (fun _ _ => rfl) ?_
  split <;> exact Steady.reads s1

omit [Steady expr] in
instance {allowed : Reporter → Reporter → Prop} [Permits allowed] : Still allowed returnedType := by
  refine .read (fun _ _ _ => rfl) fun _ => ?_
  split <;> infer_instance

instance (type : TypeId) : Steady (returnedValue expr type) := by
  unfold returnedValue
  refine .step fun kind => ?_
  split <;> infer_instance

theorem returnStatement_reads (mark : s.tokens.peek.kind = .keyword .returnKw) :
    Reads (returnStatement expr) s p := (scan_reads (by simp [mark])).andThen

theorem readStatement_reads (mark : s.tokens.peek.kind = .keyword .readKw) :
    Reads (readStatement expr) s p := by
  refine (scan_reads (by simp [mark])).step fun _ => ?_
  repeat with_reducible refine .step fun _ => ?_
  infer_instance

omit [Steady expr] in
instance (other : Int32) : Steady (printWidth other) where
  reads s := by
    refine .lookahead ?_
    split
    · next comma =>
      refine (scan_reads (by simp [comma])).bind fun _ s1 => (Steady.reads s1).bind fun _ s2 => ?_
      exact .previous (fun _ _ => rfl) (.still id)
    · exact .still id

omit [Steady expr] in
instance {allowed : Reporter → Reporter → Prop} [Permits allowed] (type : TypeId) (width : Int32) :
    Still allowed (printValue type width) := by
  unfold printValue
  infer_instance

theorem printStatement_reads (mark : s.tokens.peek.kind = .keyword .printKw) :
    Reads (printStatement expr) s p := (scan_reads (by simp [mark])).andThen

end

/-- Whether an action for statements consumes a token in front of every statement. -/
def ReadsStmt (stmt : Compile Unit) : Prop :=
  ∀ (p : Prop) (s : Compiler),
    (p → s.tokens.peek.kind ≠ .mark .rightBrace ∧ s.tokens.peek.kind ≠ .eof) → Reads stmt s p

section

variable (innerStmt : ReadsStmt stmt)

include innerStmt

theorem ReadsStmt.steady : Steady stmt :=
  ⟨fun s => innerStmt False s False.elim⟩

theorem statements_reads :
    Reads (repeatWhile (fun kind => kind != .mark .rightBrace && kind != .eof) (fun _ => stmt) ()) s
      False :=
  repeatWhile_reads rfl fun _ s more => innerStmt True s fun _ => by simpa using more

theorem block_reads (sure : p → s.tokens.peek.kind = .mark .leftBrace) : Reads (block stmt) s p :=
  (expect_reads (by simp) sure).bind fun _ _ => (statements_reads innerStmt).andThen

theorem singleStatement_reads [Steady expr]
    (sure : p → s.tokens.peek.kind ≠ .mark .rightBrace ∧ s.tokens.peek.kind ≠ .eof) :
    Reads (singleStatement stmt expr) s p := by
  have := innerStmt.steady
  refine .lookahead ?_
  split
  · next mark => exact designatorStatement_reads fun _ => mark
  · next mark => exact ifStatement_reads mark
  · next mark => exact whileStatement_reads mark
  · next mark => exact breakStatement_reads mark
  · next mark => exact returnStatement_reads mark
  · next mark => exact readStatement_reads mark
  · next mark => exact printStatement_reads mark
  · next mark => exact block_reads innerStmt fun _ => mark
  · next mark => exact scan_reads (by simp [mark])
  · refine .skip fun _ s1 same => recoverStatement_reads fun holds => ?_
    -- Statements end or begin at all other tokens that are not skipped.
    obtain ⟨notBrace, notEnd⟩ := sure holds
    rw [same]
    unfold TokenKind.boundsStatement
    split <;> simp_all

end

theorem deepStatement_reads
    (sure : p → s.tokens.peek.kind ≠ .mark .rightBrace ∧ s.tokens.peek.kind ≠ .eof) :
    Reads deepStatement s p := by
  refine .skip fun _ s1 same => skipStatement_reads ?_
  rw [same]
  exact sure

theorem statement_reads (levels : Nat)
    (sure : p → s.tokens.peek.kind ≠ .mark .rightBrace ∧ s.tokens.peek.kind ≠ .eof) :
    Reads (statement levels) s p := by
  induction levels generalizing s p with
  | zero => exact deepStatement_reads sure
  | succ levels ih =>
    exact deeper_reads (deepStatement_reads sure) (singleStatement_reads (fun _ _ => ih) sure)

/-! ## Declarations -/

theorem typeName_reads (sure : p → s.tokens.peek.kind = .ident) : Reads typeName s p := by
  refine (expectName_reads sure).step fun _ => .step fun _ => .step fun _ => .step fun _ => ?_
  infer_instance

instance : Steady typeName := ⟨fun _ => typeName_reads False.elim⟩

instance (constant : EntityId) (type : TypeId) : Steady (constantValue constant type) where
  reads s := by
    refine .lookahead ?_
    split
    · next found =>
      split
      · refine (scan_reads fun ended => ?_).bind fun _ s1 => .previous (fun _ _ => rfl) (.still id)
        simp [ended, literalType?] at found
      · exact .still id
    · exact .still id

theorem constDeclaration_reads (sure : p → s.tokens.peek.kind = .keyword .finalKw) :
    Reads constDeclaration s p := (expect_reads (by simp) sure).andThen

instance (type : TypeId) (u : Unit) : Steady (variableName type u) where
  reads s := by
    refine .lookahead ?_
    split
    · next ident =>
      exact (scan_reads (by simp [ident])).bind fun _ s1 => .previous (fun _ _ => rfl) (.still id)
    · exact .still id

theorem varDeclaration_reads (sure : p → s.tokens.peek.kind = .ident) :
    Reads varDeclaration s p := by
  refine (typeName_reads sure).bind fun type s1 => ?_
  have names : Steady (commaSeparated (variableName type) ()) := inferInstance
  exact (names.reads s1).andThen

instance : Steady varDeclarations where
  reads _ := repeatWhile_reads rfl fun _ _ more => varDeclaration_reads fun _ => by simpa using more

instance {allowed : Reporter → Reporter → Prop} [Permits allowed] :
    Still allowed leaveScope := by
  refine .read (fun _ _ _ => rfl) fun _ => ?_
  split <;> infer_instance

instance {action : Compile Unit} [inner : Steady action] : Steady (inScope action) where
  reads _ := .skip fun _ s1 _ => (inner.reads s1).bind fun _ _ => .still (m := leaveScope) id

instance : Steady fieldDeclarations where
  reads s := (Steady.reads s).bind fun _ s1 => .get (fun _ _ => rfl) (Steady.reads s1)

theorem classDeclaration_reads (sure : p → s.tokens.peek.kind = .keyword .classKw) :
    Reads classDeclaration s p := (expect_reads (by simp) sure).andThen

instance (state : Nat × Option EntityId) : Steady (parameter state) := by
  unfold parameter
  infer_instance

instance {allowed : Reporter → Reporter → Prop} [Permits allowed] (method last : EntityId) :
    Still allowed (collectAt method last) := by
  unfold collectAt
  infer_instance

instance (method : EntityId) : Steady (parameters method) where
  reads s := by
    refine (Steady.reads s).bind fun parts s1 => .lookahead ?_
    split
    · next dots =>
      refine (scan_reads (by simp [dots])).bind fun _ s2 => ?_
      split <;> exact .still id
    · exact .still id

instance {allowed : Reporter → Reporter → Prop} [Permits allowed]
    (name : String) (type : TypeId) (parameterCount adr : Nat) :
    Still allowed (enterMain name type parameterCount adr) := by
  unfold enterMain
  infer_instance

instance (method : EntityId) : Steady (parameterList method) where
  reads s := by
    refine .lookahead ?_
    split
    · exact Steady.reads s
    · exact .still id

instance (method : EntityId) (name : String) (type : TypeId) (adr : Nat) :
    Steady (methodHead method name type adr) where
  reads s := by
    refine (Steady.reads s).bind fun _ s1 => ?_
    refine .skip fun scope s2 _ => .skip fun _ s3 _ => (Steady.reads s3).bind fun _ s4 => ?_
    refine (Steady.reads s4).bind fun _ s5 => .skip fun e s6 _ => .skip fun scope s7 _ => ?_
    exact .get (fun _ _ => rfl) (Steady.reads s7)

instance (method : EntityId) (name : String) (type : TypeId) (adr : Nat) :
    Steady (openBody method name type adr) where
  reads s := by
    refine (Steady.reads s).bind fun _ s1 => (Steady.reads s1).bind fun _ s2 => ?_
    exact statements_reads fun _ _ => statement_reads maxNesting

theorem resultType_reads (more : s.tokens.peek.kind ≠ .eof) : Reads resultType s p := by
  refine .lookahead ?_
  split
  · next ident => exact typeName_reads fun _ => ident
  · exact (scan_reads more).andThen

theorem openMethod_reads (more : s.tokens.peek.kind ≠ .eof) : Reads openMethod s p := by
  refine (resultType_reads more).step fun _ => ?_
  repeat with_reducible refine .step fun _ => ?_
  infer_instance

theorem nextMethod_reads (more : s.tokens.peek.kind ≠ .eof) : Reads nextMethod s p := by
  refine .lookahead ?_
  split
  · refine .skip fun _ s1 same => ?_
    refine (recoverMethod_reads (by rw [same]; exact more)).bind fun _ s2 => .lookahead ?_
    split
    · exact .still id
    · next more => exact (openMethod_reads more).andThen
  · refine .lookahead ?_
    rw [if_neg more]
    exact (openMethod_reads more).andThen

instance {allowed : Reporter → Reporter → Prop} [Permits allowed] (type : TypeId) :
    Still allowed (finishBody type) :=
  (Still.code _).andThen fun _ => .read (fun _ _ _ => rfl) fun _ => inferInstance

theorem finishMethod_still (method : EntityId) (type : TypeId) :
    Still Continues (finishMethod method type) := by
  unfold finishMethod
  infer_instance

theorem methodDeclaration_reads (more : s.tokens.peek.kind ≠ .eof) :
    Reads methodDeclaration s p := by
  have := finishMethod_still
  rw [methodDeclaration_eq]
  refine (nextMethod_reads more).bind fun method s1 => ?_
  cases method with
  | none => exact .still (m := pure ()) id
  | some method => exact (Steady.expectMark .rightBrace |>.reads s1).andThen

theorem globalDeclaration_reads (more : s.tokens.peek.kind ≠ .eof) :
    Reads globalDeclaration s p := by
  refine .lookahead ?_
  split
  · next mark => exact constDeclaration_reads fun _ => mark
  · next mark => exact varDeclaration_reads fun _ => mark
  · next mark => exact classDeclaration_reads fun _ => mark
  · exact .skip fun _ s1 same => recoverDeclaration_reads (by rw [same]; exact more)

instance : Steady globalDeclarations where
  reads s := by
    refine (repeatWhile_reads rfl fun _ s more => globalDeclaration_reads ?_).bind fun _ s1 => ?_
    · simp at more
      exact more.2
    exact .skip fun scope s2 _ => .get (fun _ _ => rfl) (Steady.reads s2)

instance : Steady openProgram := by
  unfold openProgram
  infer_instance

instance : Steady methods where
  reads _ := repeatWhile_reads rfl fun _ s more => methodDeclaration_reads <| by
    simp at more
    exact more.2

instance (program : EntityId) : Steady (closeProgram program) := by
  unfold closeProgram
  infer_instance

theorem program_reads : Reads program s False := by
  rw [program_eq]
  exact Steady.reads s

/-! ## Repetitions -/

/-- The repetitions of a compilation: which tokens they go on at, and what they repeat. -/
inductive Loop : (α : Type) → (TokenKind → Bool) → (α → Compile α) → Prop where
  | declarations : Loop Unit (fun kind => kind != .mark .leftBrace && kind != .eof)
      fun _ => globalDeclaration
  | methods : Loop Unit (fun kind => kind != .mark .rightBrace && kind != .eof)
      fun _ => methodDeclaration
  /-- Fields of a class, and variables of a method. -/
  | vars : Loop Unit (· == .ident) fun _ => varDeclaration
  | statements (levels : Nat) : Loop Unit (fun kind => kind != .mark .rightBrace && kind != .eof)
      fun _ => statement levels
  | selectors (levels : Nat) : Loop Operand startsSelector (selector (expression levels))
  | factors (levels : Nat) : Loop Operand (fun kind => (mulOperation? kind).isSome)
      (operation mulOperation? (factor (expression levels)))
  | terms (levels : Nat) : Loop Operand (fun kind => (addOperation? kind).isSome)
      (operation addOperation? (term (expression levels)))
  | comparisons (levels : Nat) : Loop Condition (· == .mark .andAnd)
      (nextComparison (expression levels))
  | alternatives (levels : Nat) : Loop Condition (· == .mark .orOr)
      (nextAlternative (expression levels))
  | arguments (levels : Nat) : Loop (Nat × List EntityId) (· == .mark .comma)
      fun a => do scan; argument (expression levels) a
  | elements (levels : Nat) : Loop (Nat × TypeId) (· == .mark .comma)
      fun a => do scan; varArgument (expression levels) a
  | names (type : TypeId) : Loop Unit (· == .mark .comma) fun u => do scan; variableName type u
  | parameters : Loop (Nat × Option EntityId) (· == .mark .comma) fun a => do scan; parameter a

theorem Loop.reads {test : TokenKind → Bool} {body : α → Compile α} (loop : Loop α test body) :
    test .eof = false ∧
      ∀ a s, test s.tokens.peek.kind = true → Reads (body a) s True := by
  have afterComma {β : Type} (item : β → Compile β) [∀ b, Steady (item b)] (b : β) (s : Compiler)
      (comma : (s.tokens.peek.kind == .mark .comma) = true) : Reads (do scan; item b) s True := by
    simp only [beq_iff_eq] at comma
    exact (scan_reads (by simp [comma])).andThen
  cases loop with
  | declarations =>
    refine ⟨rfl, fun _ s more => globalDeclaration_reads ?_⟩
    simp at more
    exact more.2
  | methods =>
    refine ⟨rfl, fun _ s more => methodDeclaration_reads ?_⟩
    simp at more
    exact more.2
  | vars => exact ⟨rfl, fun _ s more => varDeclaration_reads fun _ => by simpa using more⟩
  | statements levels =>
    exact ⟨rfl, fun _ s more => statement_reads levels fun _ => by simpa using more⟩
  | selectors levels => exact ⟨rfl, fun _ s more => selector_reads more⟩
  | factors levels => exact ⟨rfl, fun _ s more => operation_reads rfl more⟩
  | terms levels => exact ⟨rfl, fun _ s more => operation_reads rfl more⟩
  | comparisons levels => exact ⟨rfl, fun x s more => nextComparison_reads x (by simpa using more)⟩
  | alternatives levels => exact ⟨rfl, fun x s more => nextAlternative_reads x (by simpa using more)⟩
  | arguments levels => exact ⟨rfl, afterComma (argument (expression levels))⟩
  | elements levels => exact ⟨rfl, afterComma (varArgument (expression levels))⟩
  | names type => exact ⟨rfl, afterComma (variableName type)⟩
  | parameters => exact ⟨rfl, afterComma parameter⟩

private theorem scanMany_total (count : Nat) (s : Compiler) :
    Ensures (scanMany count) s fun _ _ => True := by
  induction count generalizing s with
  | zero => exact ⟨_, _, rfl, trivial⟩
  | succ count ih => exact .ofRun rfl (ih _)

private theorem skip_total (stop : Token → Bool) (s : Compiler) :
    Ensures (do skipUntil stop; holdReports) s fun _ _ => True :=
  Ensures.bind (.get (scanMany_total _ s)) fun _ _ _ => ⟨_, _, rfl, trivial⟩

/-- The actions that go on after a problem. -/
def recoveries : List (Compile Unit) :=
  [recoverDeclaration, recoverMethod, recoverStatement, skipExpression, skipStatement]

/-- Going on after a problem ends at the end of the source at the latest. -/
theorem recoveries_consume {m : Compile Unit} (member : m ∈ recoveries)
    (wellFormed : s.tokens.WellFormed) (more : s.tokens.peek.kind ≠ .eof) :
    ∃ s', m s = .ok ((), s') ∧ s.tokens.Consumes s'.tokens := by
  have both : Ensures m s (fun _ _ => True) ∧ Reads m s False := by
    simp only [recoveries, List.mem_cons, List.not_mem_nil, or_false] at member
    rcases member with rfl | rfl | rfl | rfl | rfl
    · exact ⟨.ofRun rfl (.get (skip_total _ _)), recoverDeclaration_reads more⟩
    · exact ⟨.ofRun rfl (.get (skip_total _ _)), recoverMethod_reads more⟩
    · refine ⟨.lookahead ?_, recoverStatement_reads False.elim⟩
      split
      · exact .ofRun rfl (skip_total _ _)
      · exact skip_total _ s
    · exact ⟨.get (scanMany_total _ s), skipExpression_steady.reads s⟩
    · exact ⟨.get (scanMany_total _ s), skipStatement_reads False.elim⟩
  obtain ⟨⟨_, s', run, _⟩, reads⟩ := both
  exact ⟨s', run, (reads wellFormed _ _ run).1⟩

theorem expect_eof_run {u : Unit} {s' : Compiler} (run : expect .eof s = .ok (u, s')) :
    s'.tokens = (if s.tokens.peek.kind = .eof then s.tokens.advance else s.tokens) ∧ s.Keeps s' := by
  change (if s.tokens.peek.kind = .eof then scan else report _ : Compile Unit) s = _ at run
  split
  · next ended =>
    rw [if_pos ended] at run
    cases run
    exact ⟨rfl, rfl, continues_records s.tokens.pending s.reporter⟩
  · next more =>
    rw [if_neg more] at run
    obtain ⟨tokens, moves, _⟩ := (Still.report _).run _ _ _ run
    exact ⟨tokens, moves.toKeeps⟩

/-- Compiling a source text consumes tokens before its end, and then expects its end. -/
theorem source_consumes {reporter : Reporter} (limits : Limits) (text : List Char)
    (spaced : reporter.recorded = #[] → reporter.spacing ≤ reporter.distance) :
    ∃ middle final : Compiler,
      (do scan; program) (.start reporter limits text) = .ok ((), middle) ∧
      expect .eof middle = .ok ((), final) ∧
      source (.start reporter limits text) = .ok ((), final) ∧
      (TokenStream.ofSource text).Consumes middle.tokens ∧
      (Compiler.start reporter limits text).Keeps final := by
  have ready := Compiler.start_valid limits text spaced
  obtain ⟨_, final, run, _⟩ := source_ensures reporter limits text spaced
  obtain ⟨_, first, scanned, rest⟩ := run_bind run
  obtain ⟨_, middle, compiled, ended⟩ := run_bind rest
  have front : (do scan; program) (.start reporter limits text) = .ok ((), middle) :=
    (bind_run scanned).trans compiled
  have reads := (scan_reads (p := False) (s := .start reporter limits text)
    (by simp [Compiler.start, TokenStream.ofSource, Token.before, Token.kind, Lexeme.kind])).bind
    fun _ _ => program_reads
  obtain ⟨consumes, keeps, _⟩ := reads ready.tokens _ _ front
  exact ⟨middle, final, front, ended, run, consumes, keeps.toKeeps.trans (expect_eof_run ended).2⟩

/-- Compiling any source text comes to an end. No action before the last one consumes the end of the
source, so there are at most as many steps as tokens, and one more. Every run of a repetition
consumes a token, and the repetition ends only because its test fails. Whatever is skipped after a
problem, the end of the source is not. -/
theorem source_progress (spacing : Nat) (limits : Limits) (text : List Char) :
    (∃ middle final : Compiler,
      (do scan; program) (Compiler.start (.spaced spacing) limits text) = .ok ((), middle) ∧
      source (Compiler.start (.spaced spacing) limits text) = .ok ((), final) ∧
      (TokenStream.ofSource text).Consumes middle.tokens ∧
      final.tokens = (if middle.tokens.peek.kind = .eof then middle.tokens.advance
        else middle.tokens) ∧
      final.tokens.steps ≤ (Token.all text).length + 1) ∧
    (∀ (α : Type) (test : TokenKind → Bool) (body : α → Compile α), Loop α test body →
      ∀ a s, s.tokens.WellFormed →
        repeatWhile test body a s = (if test s.tokens.peek.kind then
          (body a >>= repeatWhile test body) s else .ok (a, s)) ∧
        ∀ a' s', test s.tokens.peek.kind = true → body a s = .ok (a', s') →
          s.tokens.Consumes s'.tokens ∧ s.tokens.steps < s'.tokens.steps) ∧
    ∀ m ∈ recoveries, ∀ s : Compiler, s.tokens.WellFormed → s.tokens.peek.kind ≠ .eof →
      ∃ s', m s = .ok ((), s') ∧ s.tokens.Consumes s'.tokens := by
  refine ⟨?_, fun α test body loop a s wellFormed => ?_, fun m member s => recoveries_consume member⟩
  · have spaced : (spaced spacing).recorded = #[] → spacing ≤ spacing :=
      fun _ => Nat.le_refl _
    obtain ⟨middle, final, front, ended, run, consumes, _⟩ := source_consumes limits text spaced
    have last := (expect_eof_run ended).1
    refine ⟨middle, final, front, run, consumes, last, ?_⟩
    have steps := consumes.steps_add (Compiler.start_valid limits text spaced).tokens
    simp only [TokenStream.ofSource] at steps
    rw [last, Token.all, List.length_map]
    split
    · rw [TokenStream.steps_advance]
      omega
    · omega
  · obtain ⟨ends, step⟩ := loop.reads
    refine ⟨repeatWhile_eq ends step wellFormed, fun a' s' more run => ?_⟩
    obtain ⟨consumes, _, strict⟩ := step a s more wellFormed a' s' run
    exact ⟨consumes, strict trivial⟩

end Compile

end MicroJava

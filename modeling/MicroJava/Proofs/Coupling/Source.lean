import MicroJava.Proofs.Coupling.Basic
import MicroJava.Proofs.Run.Source

/-! # Every action is coupled

Corresponding compilations stay so through every action of the compiler: they consume the same
tokens, declare the same entities and add the same code, whatever they report. So whole source texts
are compiled side by side from the first token on.
-/

namespace MicroJava.Coupling

open Compile

variable {k : Coupling} {nested expr : Compile Operand} {stmt : Compile Unit} {x : Operand}

/-! ## Expressions -/

/-- The operand that a name denotes in the one compilation, and what it is called in the other. -/
instance (name : String) : k.Shares (operandOf name) (operandOf (k.rename name)) :=
  .step fun id => .entityOf_blind id (fun _ _ => rfl) fun _ => inferInstance

instance : k.Shared (fieldSelector x) := by
  unfold fieldSelector
  infer_instance

instance : k.Shared (emitCall x) := by
  unfold emitCall
  split <;> infer_instance

section

variable [k.Shared nested]

instance : k.Shared (indexSelector nested x) := by
  unfold indexSelector
  repeat refine .step fun _ => ?_
  infer_instance

instance : k.Shared (selector nested x) := by
  unfold selector
  infer_instance

instance : k.Shared (designator nested) := by
  unfold designator
  infer_instance

instance (state : Nat × List EntityId) : k.Shared (argument nested state) := by
  unfold argument
  obtain ⟨count, _ | ⟨parameter, parameters⟩⟩ := state <;> infer_instance

instance (state : Nat × TypeId) : k.Shared (varArgument nested state) := by
  unfold varArgument
  repeat refine .step fun _ => ?_
  infer_instance

omit [k.Shared nested] in
instance {β : Type} {item : β → Compile β} [∀ b, k.Shared (item b)] (b : β) :
    k.Shared (expressionList item b) := by
  unfold expressionList
  infer_instance

instance (elem : TypeId) : k.Shared (varArguments nested elem) := by
  refine .step fun _ => .step fun _ => .previous fun token token' value _ => ?_
  rw [value]
  dsimp only
  repeat refine .step fun _ => ?_
  infer_instance

omit [k.Shared nested] in
instance (method : Option EntityId) : k.Shared (askParameters method) := by
  cases method with
  | none => exact .pure _
  | some id => exact .entityOf_blind id (fun _ _ => rfl) fun e => inferInstance

omit [k.Shared nested] in
instance (parameter : Option EntityId) : k.Shared (askCollected parameter) := by
  cases parameter with
  | none => exact .pure _
  | some id => exact .entityOf_blind id (fun _ _ => rfl) fun e => inferInstance

instance (called : Bool) (elem : Option TypeId) :
    k.Shared (collectArguments nested called elem) := by
  cases elem <;> unfold collectArguments <;> infer_instance

instance : k.Shared (arguments nested x) := by
  unfold arguments
  repeat refine .step fun _ => ?_
  infer_instance

instance : k.Shared (methodCall nested x) := by
  unfold methodCall
  infer_instance

instance : k.Shared (newObject nested) := by
  refine .step fun _ => @Shares.named k _ _ _ fun name => .step fun id => ?_
  refine .entityOf_blind id (fun _ _ => rfl) fun e => .step fun kind => ?_
  split
  · repeat refine .step fun _ => ?_
    infer_instance
  · infer_instance

instance : k.Shared (designatorFactor nested) := by
  unfold designatorFactor
  repeat refine .step fun _ => ?_
  infer_instance

instance : k.Shared (factor nested) := by
  refine .step fun kind => ?_
  split
  case h_2 | h_3 =>
    refine .step fun _ => .previous fun token token' value _ => ?_
    rw [value]
    infer_instance
  all_goals infer_instance

instance {operation? : TokenKind → Option Opcode} :
    k.Shared (binaryChain operation? nested x) := by
  refine @Shares.repeatWhile k _ _ _ _ (fun x => .step fun kind => ?_) x
  split <;> infer_instance

instance : k.Shared (term nested) := by
  unfold term
  infer_instance

omit [k.Shared nested] in
instance : k.Shared (negate x) := by
  unfold negate
  infer_instance

instance : k.Shared (sum nested) := by
  unfold sum
  infer_instance

end

instance : k.Shared deepExpression := by
  unfold deepExpression
  infer_instance

instance (levels : Nat) : k.Shared (expression levels) := by
  induction levels with
  | zero => exact inferInstanceAs (k.Shared deepExpression)
  | succ levels ih => exact .deeper

/-! ## Statements -/

instance : k.Shared relation := by
  refine .step fun kind => ?_
  split <;> infer_instance

instance [k.Shared expr] : k.Shared (comparison expr) := by
  unfold comparison
  repeat refine .step fun _ => ?_
  infer_instance

section

variable {expr' : Compile Operand} [k.Shares (comparison expr) (comparison expr')]

instance (x : Condition) : k.Shares (nextComparison expr x) (nextComparison expr' x) := by
  unfold nextComparison
  infer_instance

instance : k.Shares (conjunction expr) (conjunction expr') := by
  unfold conjunction
  infer_instance

instance (x : Condition) : k.Shares (nextAlternative expr x) (nextAlternative expr' x) := by
  unfold nextAlternative
  infer_instance

instance : k.Shares (condition expr) (condition expr') := by
  unfold condition
  infer_instance

instance : k.Shares (guarded expr) (guarded expr') := by
  unfold guarded
  infer_instance

end

section

variable [k.Shared expr]

instance : k.Shared (assignment expr x) := by
  unfold assignment
  infer_instance

instance (op : Opcode) : k.Shared (compoundAssignment expr x op) := by
  unfold compoundAssignment
  repeat refine .step fun _ => ?_
  infer_instance

instance : k.Shared (callStatement expr x) := by
  unfold callStatement
  infer_instance

instance : k.Shared (designatorUse expr x) := by
  refine .step fun kind => ?_
  repeat' split
  all_goals infer_instance

instance : k.Shared (designatorStatement expr) := by
  unfold designatorStatement
  infer_instance

omit [k.Shared expr] in
instance : k.Shared returnedType := by
  refine .get fun s s' states => ?_
  rw [states.method]
  split
  · exact .entityOf_blind _ (fun _ _ => rfl) fun e => inferInstance
  · infer_instance

instance (type : TypeId) : k.Shared (returnedValue expr type) := by
  refine .step fun kind => ?_
  split <;> repeat refine .step fun _ => ?_
  all_goals infer_instance

instance : k.Shared (returnStatement expr) := by
  unfold returnStatement
  infer_instance

instance : k.Shared (readStatement expr) := by
  unfold readStatement
  repeat refine .step fun _ => ?_
  infer_instance

omit [k.Shared expr] in
instance (other : Int32) : k.Shared (printWidth other) := by
  refine .step fun kind => ?_
  split
  · refine .step fun _ => .step fun _ => .previous fun token token' value _ => ?_
    rw [value]
    infer_instance
  · infer_instance

omit [k.Shared expr] in
instance (type : TypeId) (width : Int32) : k.Shared (printValue type width) := by
  unfold printValue
  infer_instance

instance : k.Shared (printStatement expr) := by
  unfold printStatement
  repeat refine .step fun _ => ?_
  infer_instance

instance : k.Shared breakStatement := by
  refine .step fun _ => .get fun s s' states => ?_
  rw [states.loopExits]
  dsimp only
  split <;> infer_instance

variable [k.Shared stmt]

instance : k.Shared (ifStatement stmt expr) := by
  unfold ifStatement
  repeat refine .step fun _ => ?_
  infer_instance

instance : k.Shared (whileStatement stmt expr) := by
  unfold whileStatement
  repeat refine .step fun _ => ?_
  infer_instance

omit [k.Shared expr] in
instance : k.Shared (block stmt) := by
  unfold block
  infer_instance

instance : k.Shared (singleStatement stmt expr) := by
  refine .step fun kind => ?_
  split
  case h_10 => exact .warned .recoverStatement
  all_goals infer_instance

end

instance : k.Shared deepStatement := by
  unfold deepStatement
  repeat refine .step fun _ => ?_
  infer_instance

instance (levels : Nat) : k.Shared (statement levels) := by
  induction levels with
  | zero => exact inferInstanceAs (k.Shared deepStatement)
  | succ levels ih => exact .deeper

/-! ## Declarations -/

instance : k.Shared typeName := by
  refine @Shares.named k _ _ _ fun name => .step fun id => ?_
  refine .entityOf_blind id (fun _ _ => rfl) fun e => ?_
  infer_instance

instance (constant : EntityId) (type : TypeId) : k.Shared (constantValue constant type) := by
  refine .step fun kind => ?_
  repeat' split
  · refine .step fun _ => .previous fun token token' value _ => ?_
    rw [value]
    infer_instance
  all_goals infer_instance

instance : k.Shared constDeclaration := by
  refine .step fun _ => .step fun type => @Shares.named k _ _ _ fun name => ?_
  infer_instance

instance : k.Shared varDeclaration := by
  refine .step fun type => @Shares.bind k _ _ _ _ _ _
    (@Shares.commaSeparated k _ _ _ (fun _ => .step fun kind => ?_) ()) inferInstance
  split
  · refine .step fun _ => .previous fun token token' _ name => ?_
    rw [name]
    infer_instance
  · infer_instance

instance : k.Shared varDeclarations := .repeatWhile ()

/-- A check of how many variables there are. -/
theorem Shares.checkLimit (limit : Limit) (count : Nat) (p : CapacityProblem) :
    k.Shares (reportIf (k.limits.get limit < count) (.capacity p))
      (reportIf (k.limits'.get limit < count) (.capacity p)) where
  couples := by
    have checked (condition : Prop) [Decidable condition] (s : Compiler) :
        reportIf condition (.capacity p) s = .ok ((), { s with
          reporter := if condition then s.reporter.report (.capacity p) else s.reporter }) := by
      by_cases holds : condition
      · simp only [reportIf, holds, decide_true, if_true]
        rfl
      · simp only [reportIf, holds, decide_false, if_false]
        rfl
    intro s s' states u t run
    rw [checked] at run
    cases run
    exact ⟨_, _, checked _ s', rfl, states.withReporter (k.check limit count p states.reporter)⟩

instance : k.Shared fieldDeclarations := by
  refine .step fun _ => .get fun s s' states => .step fun scope => ?_
  rw [states.limits, states.limits']
  exact .checkLimit .fields _ _

instance : k.Shared classDeclaration := by
  refine .step fun _ => @Shares.named k _ _ _ fun name => .step fun type => .step fun _ => ?_
  refine .step fun _ => ⟨(Couples.inScope inferInstance).bind ?_⟩
  rintro fields _ ⟨rfl, named⟩
  have := Shares.setFields (k := k) type named
  exact Shares.bind.couples

instance (state : Nat × Option EntityId) : k.Shared (parameter state) := by
  unfold parameter
  repeat refine .step fun _ => ?_
  infer_instance

instance (method last : EntityId) : k.Shared (collectAt method last) := by
  unfold collectAt
  infer_instance

instance (method : EntityId) : k.Shared (parameters method) := by
  refine .step fun parts => .step fun kind => ?_
  split
  · refine .step fun _ => ?_
    split <;> infer_instance
  · infer_instance

instance (method : EntityId) : k.Shared (parameterList method) := by
  refine .step fun kind => ?_
  split <;> infer_instance

instance (name : String) (type : TypeId) (parameterCount adr : Nat) :
    k.Shared (enterMain name type parameterCount adr) := by
  unfold enterMain
  infer_instance

instance (type : TypeId) : k.Shared (finishBody type) := by
  refine .step fun _ => .get fun s s' states => ?_
  rw [states.code]
  infer_instance

/-- The body of a method, whose name in the other compilation is `main` only if it is so here. -/
instance (method : EntityId) (name : String) (type : TypeId) (adr : Nat) :
    k.Shares (methodBody method name type adr) (methodBody method (k.rename name) type adr) := by
  have isMain : k.rename name = "main" ↔ name = "main" := by
    rw [← k.injective.eq_iff (a := name), k.fixed "main" (by decide)]
  have same : methodBody method (k.rename name) type adr = methodBody method name type adr := by
    simp only [methodBody, methodHead, enterMain, isMain]
  rw [same]
  have head : k.Shared (methodHead method name type adr) := by
    refine .step fun _ => .step fun scope => .step fun _ => .step fun _ => .step fun _ => ?_
    refine .entityOf_blind method (fun _ _ => rfl) fun e => .step fun scope => ?_
    refine .get fun s s' states => ?_
    rw [states.limits, states.limits']
    exact @Shares.bind k _ _ _ _ _ _ (.checkLimit .locals _ _) inferInstance
  unfold methodBody
  infer_instance

instance : k.Shared resultType := by
  refine .step fun kind => ?_
  split <;> infer_instance

instance : k.Shared methodFrom := by
  refine .step fun type => @Shares.named k _ _ _ fun name => ?_
  repeat refine .step fun _ => ?_
  infer_instance

instance : k.Shared methodDeclaration := by
  refine .step fun kind => ?_
  split
  · exact .warned (SharesWarned.recoverMethod.bind fun _ => inferInstance)
  · infer_instance

instance : k.Shared globalDeclaration := by
  refine .step fun kind => ?_
  split
  case h_4 => exact .warned .recoverDeclaration
  all_goals infer_instance

instance : k.Shared globalDeclarations := by
  refine .step fun _ => .step fun scope => .get fun s s' states => ?_
  rw [states.limits, states.limits']
  exact @Shares.bind k _ _ _ _ _ _ (.checkLimit .globals _ _) inferInstance

instance : k.Shared programBody := by
  unfold programBody methods
  infer_instance

instance : k.Shared program := by
  unfold program
  repeat refine .step fun _ => ?_
  infer_instance

/-- Two compilations whose tokens stand for each other correspond after the first token. -/
theorem start_couples {limits limits' : Limits} {source source' : List Char} {r r' : Reporter}
    (own : limits.clamped = k.limits) (other : limits'.clamped = k.limits')
    (tokens : List.Forall₂ k.Scanned (Scanned.all source) (Scanned.all source'))
    (reporters : ∀ next next', k.Scanned next next' →
      k.Reporters ((next.diagnostics.foldl Reporter.record r).advance next.token.pos)
        ((next'.diagnostics.foldl Reporter.record r').advance next'.token.pos)) (first : Compiler)
    (scanned : scan (.start r limits source) = .ok ((), first)) :
    ∃ first', scan (.start r' limits' source') = .ok ((), first') ∧
      k.States first first' := by
  cases scanned
  refine ⟨_, rfl, ?_⟩
  obtain ⟨front, lexemes, _⟩ := Scanned.all_lexemes source
  simp only [TokenStream.pending, TokenStream.advance, Compiler.start, TokenStream.ofSource]
  generalize Scanned.all source = all at tokens lexemes
  generalize Scanned.all source' = all' at tokens
  cases tokens with
  | nil => simp at lexemes
  | @cons next next' _ _ alike more =>
    exact {
      prev := rfl
      peek := alike.1
      rest := more
      reporter := reporters next next' alike
      table := SymbolTable.initial_renamed k.fixed
      code := rfl
      limits := own
      limits' := other
      method := rfl
      loopExits := rfl
      depth := rfl }

/-- Whole source texts compiled side by side. If the states correspond after the first token, then
so do those at the end. -/
theorem source_couples {s s' t : Compiler}
    (started : ∀ first, scan s = .ok ((), first) →
      ∃ first', scan s' = .ok ((), first') ∧ k.States first first')
    (run : source s = .ok ((), t)) :
    ∃ t', source s' = .ok ((), t') ∧ k.States t t' := by
  obtain ⟨_, first, scanned, rest⟩ := run_bind run
  obtain ⟨first', scanned', states⟩ := started first scanned
  have whole : k.Shared (do program; expect .eof) := inferInstance
  obtain ⟨_, t', run', _, after⟩ := whole.couples first first' states _ _ rest
  exact ⟨t', (bind_run scanned').trans run', after⟩

end MicroJava.Coupling

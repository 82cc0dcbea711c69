import MicroJava.Proofs.Run.Condition

/-! # Compiling statements

Every action for a statement succeeds in every valid state. If nothing was reported, the lexemes it
consumed are those of a statement that compiles to just the code that was added. A jump out of that
code can only be a `break` that leaves the loop around the statement.
-/

namespace MicroJava

open Syntax Compiler Items Stmt Operand List

namespace Compiler

/-- Where a statement stands that is compiled in a state. -/
def place (s : Compiler) : Place where
  returns := s.method.elim .none fun id => (s.table.entity id).type
  inLoop := !s.loopExits.isEmpty

theorem Extends.place {s s1 : Compiler} {items : List Item} (extension : s.Extends s1 items) :
    s1.place = s.place := by
  have inLoop : s1.loopExits.isEmpty = s.loopExits.isEmpty := by
    rw [extension.exits]
    unfold noteSlots
    split <;> simp_all
  simp only [Compiler.place, extension.method, extension.entity, inLoop]

/-- The effect of compiling a statement. -/
def Performs (s s' : Compiler) (rule : StmtTranslation) : Prop :=
  ∃ items, s.Extends s' items ∧ Await s.place.exits items ∧
    (s'.Clean → s.Clean ∧ ∃ stmt : Stmt, s.tokens.upcoming = stmt.lexemes ++ s'.tokens.upcoming ∧
      stmt.proper = true ∧ (stmt.endsOpen = true → s'.tokens.peek.kind ≠ .keyword .elseKw) ∧
      rule s.place s.table s.code.pc stmt items s'.table)

/-- The effect of compiling what follows a designator in a statement, up to the semicolon. -/
def Uses (s s' : Compiler) (x : Operand) (rule : Translation Expr) : Prop :=
  ∃ items, s.Extends s' items ∧ Straight items ∧
    (s'.Clean → s.Clean ∧ ∃ (use : Designator → Stmt) (lexemes : List Lexeme),
      s.tokens.upcoming = lexemes ++ s'.tokens.upcoming ∧ ∀ d,
        (use d).lexemes = d.lexemes ++ lexemes ++ [.mark .semicolon] ∧ (use d).proper = true ∧
        (use d).endsOpen = false ∧ ∀ nested place t base front,
          d.Compiles rule t front x s.table →
          Stmt.CompilesIn nested rule place t base (use d) (front ++ items) s'.table)

variable {φ : Type} {s s' : Compiler} {lexemes : φ → List Lexeme}
  {phraseRule : SymbolTable → φ → List Item → SymbolTable → Prop}

/-- A phrase that a statement is made of. -/
theorem Translates.performs {rule : StmtTranslation} (phrase : s.Translates s' lexemes phraseRule)
    (make : φ → Stmt)
    (shape : ∀ e, (make e).lexemes = lexemes e ∧ (make e).proper = true ∧ (make e).endsOpen = false)
    (holds : ∀ e items, phraseRule s.table e items s'.table →
      rule s.place s.table s.code.pc (make e) items s'.table) : s.Performs s' rule := by
  obtain ⟨items, extension, straight, accepted⟩ := phrase
  refine ⟨items, extension, straight.await _, fun clean => ?_⟩
  obtain ⟨clean, e, reads, compiles⟩ := accepted clean
  obtain ⟨written, proper, notOpen⟩ := shape e
  exact ⟨clean, make e, by rw [reads, written], proper, by simp [notOpen], holds e items compiles⟩

/-- A phrase that makes a statement of a designator. -/
theorem Translates.uses {x : Operand} {rule : Translation Expr}
    (phrase : s.Translates s' lexemes phraseRule) (make : φ → Designator → Stmt)
    (shape : ∀ e d, (make e d).lexemes = d.lexemes ++ lexemes e ++ [.mark .semicolon] ∧
      (make e d).proper = true ∧ (make e d).endsOpen = false)
    (holds : ∀ e items, phraseRule s.table e items s'.table → ∀ d nested place t base front,
      d.Compiles rule t front x s.table →
      CompilesIn nested rule place t base (make e d) (front ++ items) s'.table) :
    s.Uses s' x rule := by
  obtain ⟨items, extension, straight, accepted⟩ := phrase
  refine ⟨items, extension, straight, fun clean => ?_⟩
  obtain ⟨clean, e, reads, compiles⟩ := accepted clean
  exact ⟨clean, make e, lexemes e, reads, fun d =>
    ⟨(shape e d).1, (shape e d).2.1, (shape e d).2.2, holds e items compiles d⟩⟩

end Compiler

namespace Compile

variable {s : Compiler} {x : Operand} {expr : Compile Operand} {rule : Translation Expr}
  {nested : Compile Unit} {stmtRule : StmtTranslation}

/-- Whether an action compiles statements as a relation says. -/
def Executes (m : Compile Unit) (rule : StmtTranslation) : Prop :=
  ∀ s, s.Valid → Ensures m s fun _ s' => s.Performs s' rule

theorem Spoils.performs {m : Compile Unit} (spoils : Spoils m s) :
    Ensures m s fun _ s' => s.Performs s' stmtRule := by
  refine spoils.mono ?_
  rintro _ s' ⟨skipped, problem⟩
  exact ⟨[], skipped.toExtends, straight_nil.await _, fun clean => absurd clean problem⟩

/-! ## Statements that begin with a designator -/

theorem assignment_uses (inner : Realizes expr Expr.lexemes rule) (valid : s.Valid)
    (known : s.table.Knows x) (mark : s.tokens.peek.kind = .mark .assign) :
    Ensures (assignment expr x) s fun _ s' => s.Uses s' x rule := by
  refine .bind (scan_mark valid fun _ => mark) fun _ s1 scanned => ?_
  refine .bind (inner s1 scanned.valid) ?_
  rintro y s2 ⟨knownY, value⟩
  refine .check value.valid fun s3 storable => ?_
  refine .check storable.valid fun s4 valued => ?_
  have back := storable.trans valued
  have known := back.knows (value.knows (scanned.knows known))
  refine .assignable (back.knows knownY).type known.type ?_
  rw [back.table]
  refine .check back.valid fun s5 assignable => ?_
  refine (assign_does assignable.valid x y).mono fun _ s6 assigned => ?_
  have back := (back.trans assignable).trans assigned
  refine (value.between scanned back (by simp)).uses (fun e d => .assign d e)
    (by simp [lexemes, proper, endsOpen]) ?_
  rintro e _ ⟨_, rfl, _, ⟨⟨⟨storable, valued⟩, assignable⟩, _⟩, compiles⟩ d nested place t base front
    designator
  rw [← back.table] at assignable
  simpa using CompilesIn.assign designator compiles (by simpa using storable) valued
    (by simpa using assignable)

theorem loadAndKeep_does (valid : s.Valid) (x : Operand) :
    Ensures (codeReported x.loadAndKeep) s fun _ s' => ∃ items, Straight items ∧
      (x.isVariable = true → items = x.loadItems) ∧ s.Does s' items [] True := by
  by_cases method : x.kind = .method
  · have same : x.loadAndKeep s.code =
        { result := s.code.assemble [], problems := [.semantic .valueExpected] } := by
      simp [loadAndKeep, method]
    refine (codeReported_does valid same (by simp)).mono fun _ s' does => ?_
    exact ⟨[], by simp, by simp [isVariable, method], does.imp fun _ => trivial⟩
  · refine (codeReported_does valid (x.loadAndKeep_eq s.code method) (by simp)).mono
      fun _ s' does => ?_
    exact ⟨x.loadItems, by simp, fun _ => rfl, does.imp fun _ => trivial⟩

private theorem assignOperation_item {kind : TokenKind} {op : Opcode}
    (found : assignOperation? kind = some op) :
    ∃ (o : UpdateOp) (proper : _), kind = .mark o.mark ∧ o.item = .plain op [] proper := by
  fun_cases assignOperation? kind with
  | case1 => cases found; exact ⟨.add .plus, ⟨rfl, rfl⟩, rfl, rfl⟩
  | case2 => cases found; exact ⟨.add .minus, ⟨rfl, rfl⟩, rfl, rfl⟩
  | case3 => cases found; exact ⟨.mul .times, ⟨rfl, rfl⟩, rfl, rfl⟩
  | case4 => cases found; exact ⟨.mul .slash, ⟨rfl, rfl⟩, rfl, rfl⟩
  | case5 => cases found; exact ⟨.mul .percent, ⟨rfl, rfl⟩, rfl, rfl⟩
  | case6 => simp [assignOperation?] at found

theorem compoundAssignment_uses (inner : Realizes expr Expr.lexemes rule) (valid : s.Valid)
    {op : Opcode} (found : assignOperation? s.tokens.peek.kind = some op) :
    Ensures (compoundAssignment expr x op) s fun _ s' => s.Uses s' x rule := by
  obtain ⟨o, proper, mark, isItem⟩ := assignOperation_item found
  refine .bind (scan_mark valid fun _ => mark) fun _ s1 scanned => ?_
  refine .bind (code_ensures scanned.valid (x.keepAddress_eq _) (by simp))
    fun _ s2 kept => ?_
  refine .check kept.valid fun s3 storable => ?_
  refine .bind (loadAndKeep_does storable.valid x) ?_
  rintro _ s4 ⟨loads, straight1, same, loaded⟩
  have front := ((scanned.trans kept).trans storable).trans loaded
  refine .bind (inner s4 front.valid) ?_
  rintro y s5 ⟨_, value⟩
  refine .check value.valid fun s6 valued => ?_
  refine .check valued.valid fun s7 ints => ?_
  refine .loadsValue ints.valid fun s8 loaded' => ?_
  refine .bind (emit_does loaded'.valid proper) fun _ s9 emitted => ?_
  refine (assign_does emitted.valid x _).mono fun _ s' assigned => ?_
  have back := (((valued.trans ints).trans loaded').trans emitted).trans assigned
  refine (value.between front back (by simp [straight1])).uses (fun e d => .update d o e)
    (by simp [Stmt.lexemes, Stmt.proper, Stmt.endsOpen]) ?_
  rintro e _ ⟨_, rfl, ⟨⟨_, storable⟩, _⟩, ⟨⟨⟨⟨valued, ints⟩, _⟩, _⟩, _⟩, compiles⟩ d nested place t base
    items0 designator
  have storable : x.isVariable = true := by simpa using storable
  have ints : x.type = .int ∧ y.type = .int := by simpa using ints
  have update : CompilesIn nested rule place t base (.update d o e) _ _ :=
    .update designator compiles storable valued ints
  simpa [same storable, isItem, onStack, loadItems] using update

theorem callStatement_uses (inner : Realizes expr Expr.lexemes rule) (valid : s.Valid)
    (known : s.table.Knows x) : Ensures (callStatement expr x) s fun _ s' => s.Uses s' x rule := by
  refine .bind (methodCall_calls inner valid known) ?_
  rintro y s1 ⟨_, call⟩
  have dropped : Ensures (if y.type = .none then pure () else emit .pop []) s1 fun _ s2 =>
      s1.Does s2 (if y.type = .none then [] else [.plain .pop [] ⟨rfl, rfl⟩]) [] True := by
    split
    · exact .pure (.refl call.valid trivial)
    · exact emit_does call.valid _
  refine dropped.mono fun _ s2 dropped => ?_
  refine (call.before valid dropped ?_).uses (fun args d => .call d args)
    (by simp [lexemes, proper, endsOpen]) ?_
  · split <;> simp
  · rintro args _ ⟨_, rfl, _, rfl, isMethod, id, front, method, rfl, pass⟩ d nested place t base items0
      designator
    simpa using CompilesIn.call designator isMethod method pass

theorem step_uses (valid : s.Valid) (up : Bool)
    (mark : s.tokens.peek.kind = .mark (if up then .plusPlus else .minusMinus)) :
    Ensures (do codeReported (x.step up); scan) s fun _ s' => s.Uses s' x rule := by
  refine .bind (codeReported_does valid (x.step_eq up s.code) (by simp))
    fun _ s1 stepped => ?_
  refine (scan_mark stepped.valid fun clean => (stepped.peek_kind clean).trans mark).mono
    fun _ s2 scanned => ?_
  have whole := stepped.trans scanned
  refine (Translates.ofStep whole (by simp)).uses (fun _ d => .step d up)
    (by simp [lexemes, proper, endsOpen]) ?_
  rintro _ _ ⟨rfl, checks, _⟩ d nested place t base front designator
  rw [whole.table, append_nil]
  simp only [append_eq_nil_iff, ite_eq_left_iff, cons_ne_self, imp_false,
    Decidable.not_not] at checks
  exact .step designator checks.2 checks.1

theorem designatorUse_uses (inner : Realizes expr Expr.lexemes rule) (valid : s.Valid)
    (known : s.table.Knows x) : Ensures (designatorUse expr x) s fun _ s' => s.Uses s' x rule := by
  refine .lookahead ?_
  split
  · next mark => exact assignment_uses inner valid known mark
  · exact callStatement_uses inner valid known
  · next mark => exact step_uses valid true mark
  · next mark => exact step_uses valid false mark
  · split
    · next found => exact compoundAssignment_uses inner valid found
    · refine (report_does valid _).mono ?_
      rintro _ s1 ⟨reported, problem⟩
      exact ⟨[], reported.toExtends, by simp, fun clean => absurd clean problem⟩

theorem designatorStatement_executes (inner : Realizes expr Expr.lexemes rule) :
    Executes (designatorStatement expr) (CompilesIn stmtRule rule) := by
  intro s valid
  refine .bind (designator_realizes inner s valid) ?_
  rintro x s1 ⟨known, items1, extends1, straight1, accepted1⟩
  refine .bind (designatorUse_uses inner extends1.valid known) ?_
  rintro _ s2 ⟨items2, extends2, straight2, accepted2⟩
  refine (expect_mark extends2.valid).mono fun _ s3 closed => ?_
  refine ⟨_, (extends1.trans extends2).trans closed.toExtends,
    Straight.await (by simp [straight1, straight2]) _, fun clean => ?_⟩
  obtain ⟨clean, reads3, _⟩ := closed.accepted clean
  obtain ⟨clean, use, lexemes, reads2, uses⟩ := accepted2 clean
  obtain ⟨clean, d, reads1, compiles⟩ := accepted1 clean
  obtain ⟨written, proper, notOpen, uses⟩ := uses d
  refine ⟨clean, use d, ?_, proper, by simp [notOpen], ?_⟩
  · simp [reads1, reads2, reads3, written]
  · rw [closed.table, append_nil]
    exact uses _ _ _ _ _ compiles

/-! ## Other simple statements -/

/-- A jump to behind the loop around a statement is noted at the label of the loop. -/
theorem jumpOut_extends (valid : s.Valid) {slots : List Nat} {exits : List Label}
    (loops : s.loopExits = .pending slots :: exits) :
    s.Extends { s with code := s.code.add (.jump none (.waiting .exit)),
                       loopExits := .pending ((s.code.pc + 1) :: slots) :: exits }
      [.jump none (.waiting .exit)] := by
  refine ⟨⟨rfl, rfl, rfl, Nat.le_refl _, rfl, rfl, ?_⟩, ?_⟩
  · refine { valid with code := valid.code.assemble [.jump none (.waiting .exit)], exits := ?_ }
    intro exit member
    rcases mem_cons.mp member with rfl | member
    · rfl
    · exact valid.exits exit (by rw [loops]; exact mem_cons_of_mem _ member)
  · simp [loops, noteSlots, Items.slots, Item.waitsFor]

theorem breakStatement_performs (valid : s.Valid) (mark : s.tokens.peek.kind = .keyword .breakKw) :
    Ensures breakStatement s fun _ s' => s.Performs s' (CompilesIn stmtRule rule) := by
  refine .bind (scan_keyword valid fun _ => mark) fun _ s1 scanned => ?_
  refine .get ?_
  split
  · refine .bind (report_does scanned.valid _) ?_
    rintro _ s2 ⟨reported, problem⟩
    refine (expect_mark reported.valid).mono fun _ s3 closed => ?_
    refine ⟨_, (scanned.trans (reported.trans closed)).toExtends,
      Straight.await (by simp) _, fun clean => absurd ?_ problem⟩
    exact (closed.accepted clean).1
  · next exit exits loops =>
    have unresolved := scanned.valid.exits exit (by simp [loops])
    cases exit with
    | resolved adr => simp [Label.adr?] at unresolved
    | pending slots =>
      have left := jumpOut_extends scanned.valid loops
      refine .ofRun (jump_pending _ .exit _) (.ofRun rfl ?_)
      refine (expect_mark left.valid).mono fun _ s2 closed => ?_
      have inLoop : s.place.inLoop = true := by
        rw [← scanned.place]
        simp [Compiler.place, loops]
      refine ⟨_, (scanned.toExtends.trans left).trans closed.toExtends, ?_, fun clean => ?_⟩
      · exact await_jump (by simp [inLoop]) _
      · obtain ⟨clean, reads1, _⟩ := closed.accepted clean
        obtain ⟨clean, reads, _⟩ := scanned.accepted clean
        refine ⟨clean, .leave, ?_, by simp [proper], by simp [endsOpen], ?_⟩
        · rw [reads]
          exact congrArg _ reads1
        · rw [closed.table]
          simp only [scanned.table]
          exact .leave inLoop

theorem Ensures.opening {α : Type} {m : Compile α} {post : α → Compiler → Prop} {k : Keyword}
    (valid : s.Valid) (mark : s.tokens.peek.kind = .keyword k)
    (rest : ∀ s', s.Does s' [] [.keyword k, .mark .leftParen] True → Ensures m s' post) :
    Ensures (do scan; expect (.mark .leftParen); m) s post := by
  refine .bind (scan_keyword valid fun _ => mark) fun _ s1 scanned => ?_
  refine .expectMark scanned.valid fun s2 opened => rest s2 ?_
  exact (scanned.trans opened).imp And.right

theorem readStatement_performs (inner : Realizes expr Expr.lexemes rule) (valid : s.Valid)
    (mark : s.tokens.peek.kind = .keyword .readKw) :
    Ensures (readStatement expr) s fun _ s' => s.Performs s' (CompilesIn stmtRule rule) := by
  refine .opening valid mark fun s2 front => ?_
  refine .bind (designator_realizes inner s2 front.valid) ?_
  rintro x s3 ⟨known, designator⟩
  refine .check designator.valid fun s4 storable => ?_
  refine .check storable.valid fun s5 readable => ?_
  have emitted : Ensures (emit (if x.type = .char then .bread else .read) []) s5 fun _ s6 =>
      s5.Does s6 [if x.type = .char then .plain .bread [] ⟨rfl, rfl⟩
        else .plain .read [] ⟨rfl, rfl⟩] [] True := by
    split
    · exact emit_does readable.valid _
    · exact emit_does readable.valid _
  refine .bind emitted fun _ s6 emitted => ?_
  refine .bind (assign_does emitted.valid x _) fun _ s7 assigned => ?_
  refine .expectMark assigned.valid fun s8 closed => ?_
  refine (expect_mark closed.valid).mono fun _ s9 ended => ?_
  have back := (((storable.trans readable).trans emitted).trans assigned).trans (closed.trans ended)
  refine (designator.between front back ?_).performs .read
    (by simp [lexemes, proper, endsOpen]) ?_
  · split <;> simp
  · rintro d _ ⟨_, rfl, _, ⟨⟨⟨⟨storable, readable⟩, _⟩, _⟩, _⟩, compiles⟩
    have readable : x.type = .int ∨ x.type = .char := by
      simp only [Bool.and_eq_false_iff, bne_eq_false_iff_eq] at readable
      exact readable
    have read : CompilesIn stmtRule rule s.place s.table s.code.pc (.read d) _ _ :=
      .read compiles (by simpa using storable) readable
    simpa [onStack, loadItems] using read

theorem printWidth_ensures (valid : s.Valid) (other : Int32) :
    Ensures (printWidth other) s fun width s' => ∃ written : Option Int32,
      s.Does s' [] (written.elim [] fun value => [.mark .comma, .number value])
        (width = written.getD other) := by
  refine .lookahead ?_
  split
  · next comma =>
    refine .bind (scan_mark valid fun _ => comma) fun _ s1 scanned => ?_
    refine .bind (expect_number scanned.valid) fun _ s2 number => ?_
    exact .previous (.pure ⟨some s2.tokens.prev.value, (scanned.trans number).imp fun _ => rfl⟩)
  · exact .pure ⟨none, .refl valid rfl⟩

theorem printValue_ensures (valid : s.Valid) (type : TypeId) (width : Int32) :
    Ensures (printValue type width) s fun _ s' => ∃ items, Straight items ∧ s.Does s' items []
      ((type = .int ∨ type = .char) ∧ items = [.const width.toInt,
        if type = .int then .plain .print [] ⟨rfl, rfl⟩ else .plain .bprint [] ⟨rfl, rfl⟩]) := by
  unfold printValue
  split
  · next int =>
    refine .bind (loadConst_does valid _) fun _ s1 const => ?_
    refine (emit_does const.valid ⟨rfl, rfl⟩).mono fun _ s2 emitted => ?_
    exact ⟨_, by simp, (const.trans emitted).imp fun _ => ⟨.inl int, rfl⟩⟩
  · split
    · next char =>
      refine .bind (loadConst_does valid _) fun _ s1 const => ?_
      refine (emit_does const.valid ⟨rfl, rfl⟩).mono fun _ s2 emitted => ?_
      exact ⟨_, by simp, (const.trans emitted).imp fun _ => ⟨.inr char, rfl⟩⟩
    · refine (report_does valid _).mono ?_
      rintro _ s1 ⟨reported, problem⟩
      exact ⟨[], by simp, reported.ofProblem problem _ _⟩

theorem printStatement_performs (inner : Realizes expr Expr.lexemes rule) (valid : s.Valid)
    (mark : s.tokens.peek.kind = .keyword .printKw) :
    Ensures (printStatement expr) s fun _ s' => s.Performs s' (CompilesIn stmtRule rule) := by
  refine .opening valid mark fun s2 front => ?_
  refine .bind (inner s2 front.valid) ?_
  rintro x s3 ⟨known, value⟩
  refine .bind (printWidth_ensures value.valid _) ?_
  rintro width s4 ⟨written, widened⟩
  refine .loadsValue widened.valid fun s5 loaded => ?_
  refine .bind (printValue_ensures loaded.valid x.type _) ?_
  rintro _ s6 ⟨prints, straight2, printed⟩
  refine .expectMark printed.valid fun s7 closed => ?_
  refine (expect_mark closed.valid).mono fun _ s8 ended => ?_
  have back := ((widened.trans loaded).trans printed).trans (closed.trans ended)
  refine (value.between front back (by simp [straight2])).performs (.print · written)
    (by simp [lexemes, proper, endsOpen]) ?_
  rintro e _ ⟨_, rfl, _, ⟨⟨⟨width, valued⟩, printable, rfl⟩, _⟩, compiles⟩
  have print : CompilesIn stmtRule rule s.place s.table s.code.pc (.print e written) _ _ :=
    .print compiles valued printable
  simpa [width] using print

theorem returnedType_ensures (valid : s.Valid) :
    Ensures returnedType s fun type s' => type = s.place.returns ∧ s' = s := by
  refine .get ?_
  cases method : s.method with
  | none => exact .pure ⟨by simp [Compiler.place, method], rfl⟩
  | some id =>
    exact .entityOf (valid.method id method) (.pure ⟨by simp [Compiler.place, method], rfl⟩)

theorem leaveMethod_does (valid : s.Valid) :
    Ensures (do emit .exit []; emit .ret []; expect (.mark .semicolon)) s fun _ s' =>
      s.Does s' returnItems [.mark .semicolon] True := by
  refine .bind (emit_does valid ⟨rfl, rfl⟩) fun _ s1 exit => ?_
  refine .bind (emit_does exit.valid ⟨rfl, rfl⟩) fun _ s2 ret => ?_
  refine (expect_mark ret.valid).mono fun _ s3 ended => ?_
  exact ((exit.trans ret).trans ended).imp fun _ => trivial

theorem returnStatement_performs (inner : Realizes expr Expr.lexemes rule) (valid : s.Valid)
    (mark : s.tokens.peek.kind = .keyword .returnKw) :
    Ensures (returnStatement expr) s fun _ s' => s.Performs s' (CompilesIn stmtRule rule) := by
  refine .bind (scan_keyword valid fun _ => mark) fun _ s1 scanned => ?_
  refine .bind (returnedType_ensures scanned.valid) ?_
  rintro _ _ ⟨rfl, rfl⟩
  rw [scanned.place]
  have knownType : s.table.types.contains s.place.returns = true := by
    cases method : s.method with
    | none => simpa [Compiler.place, method] using valid.table.contains_basic (a := .none) (by decide)
    | some id =>
      simpa [Compiler.place, method] using valid.table.contains_type (valid.method id method)
  simp only [returnedValue, bind_assoc]
  refine .lookahead ?_
  split
  · simp only [bind_assoc]
    refine .check scanned.valid fun s2 result => ?_
    have front := scanned.trans result
    refine .bind (inner s2 front.valid) ?_
    rintro x s3 ⟨known, value⟩
    refine .loadsValue value.valid fun s4 loaded => ?_
    refine .assignable (loaded.knows known).type
      (loaded.contains_type (value.contains_type (front.contains_type knownType))) ?_
    rw [loaded.table]
    refine .check loaded.valid fun s5 assignable => ?_
    refine (leaveMethod_does assignable.valid).mono fun _ s6 left => ?_
    have back := (loaded.trans assignable).trans left
    refine (value.between front back (by simp [returnItems, CodeBuffer.finishItems])).performs
      (fun e => .yield (some e)) (by simp [lexemes, proper, endsOpen]) ?_
    rintro e _ ⟨_, rfl, ⟨_, result⟩, ⟨⟨valued, assignable⟩, _⟩, compiles⟩
    rw [← back.table] at assignable
    have yielded : CompilesIn stmtRule rule s.place s.table s.code.pc (.yield (some e)) _ _ :=
      .yieldValue compiles valued (by simpa using result) (by simpa using assignable)
    simpa using yielded
  · refine .check scanned.valid fun s2 void => ?_
    refine (leaveMethod_does void.valid).mono fun _ s3 left => ?_
    have whole := (scanned.trans void).trans left
    refine (Translates.ofStep whole (by simp [returnItems, CodeBuffer.finishItems])).performs
      (fun _ => .yield none) (by simp [lexemes, proper, endsOpen]) ?_
    rintro _ _ ⟨rfl, ⟨_, void⟩, _⟩
    rw [whole.table]
    exact .yieldNothing (by simpa using void)

/-! ## Blocks -/

/-- The effect of compiling statements one after the other. -/
def PerformsAll (rule : StmtTranslation) (s s' : Compiler) (lexemes : List Stmt → List Lexeme) :
    Prop :=
  ∃ items, s.Extends s' items ∧ Await s.place.exits items ∧
    (s'.Clean → s.Clean ∧ ∃ body, s.tokens.upcoming = lexemes body ++ s'.tokens.upcoming ∧
      Stmt.listProper body = true ∧
      Stmt.Sequence rule s.place s.table s.code.pc body items s'.table)

theorem block_performsAll (inner : Executes nested stmtRule) (valid : s.Valid) :
    Ensures (block nested) s fun _ s' => PerformsAll stmtRule s s' fun body =>
      .mark .leftBrace :: listLexemes body ++ [.mark .rightBrace] := by
  refine .expectMark valid fun s1 opened => ?_
  refine .bind (repeatWhile_ensures (i := fun _ s => s.Valid)
    (r := fun _ s _ s' => PerformsAll stmtRule s s' listLexemes) ?stop ?step opened.valid) ?rest
  case stop =>
    intro _ s valid
    exact ⟨[], .refl valid, straight_nil.await _, fun clean =>
      ⟨clean, [], by simp [listLexemes], by simp [listProper], .nil⟩⟩
  case step =>
    intro _ s valid _
    refine (inner s valid).mono ?_
    rintro _ s1 ⟨items1, extends1, await1, accepted1⟩
    refine ⟨extends1.valid, ?_⟩
    rintro _ s2 ⟨items2, extends2, await2, accepted2⟩
    rw [extends1.place] at await2
    refine ⟨_, extends1.trans extends2, await_append.mpr ⟨await1, await2⟩, fun clean => ?_⟩
    obtain ⟨clean, rest, reads2, proper2, sequence⟩ := accepted2 clean
    obtain ⟨clean, first, reads1, proper1, _, compiles⟩ := accepted1 clean
    rw [extends1.place, extends1.pc] at sequence
    refine ⟨clean, first :: rest, ?_, ?_, .cons compiles sequence⟩
    · simp [reads1, reads2, listLexemes]
    · simp [listProper, proper1, proper2]
  case rest =>
    rintro _ s2 ⟨items, extends2, await, accepted⟩
    refine (expect_mark extends2.valid).mono fun _ s3 closed => ?_
    rw [opened.place] at await
    refine ⟨_, (opened.toExtends.trans extends2).trans closed.toExtends, by simpa using await,
      fun clean => ?_⟩
    obtain ⟨clean, reads2, _⟩ := closed.accepted clean
    obtain ⟨clean, body, reads1, proper, sequence⟩ := accepted clean
    obtain ⟨clean, reads, _⟩ := opened.accepted clean
    refine ⟨clean, body, by simp [reads, reads1, reads2], proper, ?_⟩
    rw [closed.table, append_nil]
    rw [opened.table, opened.place, opened.pc] at sequence
    exact sequence

theorem blockStatement_executes (inner : Executes nested stmtRule) :
    Executes (block nested) (CompilesIn stmtRule rule) := by
  intro s valid
  refine (block_performsAll inner valid).mono ?_
  rintro _ s' ⟨items, extension, await, accepted⟩
  refine ⟨items, extension, await, fun clean => ?_⟩
  obtain ⟨clean, body, reads, proper, sequence⟩ := accepted clean
  refine ⟨clean, .block body, ?_, by simpa [Stmt.proper] using proper, by simp [Stmt.endsOpen],
    .block sequence⟩
  simpa [lexemes] using reads

/-! ## Conditional statements and loops -/

/-- What is known when the first branch of a conditional statement was compiled: the guard and the
branch were added, and `onFalse` waits in the guard. -/
structure Guarded (stmtRule : StmtTranslation) (rule : Translation Expr) (s s' : Compiler)
    (onFalse : Label) (guard body : List Item) : Prop where
  adds : s.Extends s' (guard ++ body)
  awaitGuard : Await [.fails] guard
  awaitBody : Await s.place.exits body
  waiting : onFalse = .pending (Items.slots .fails s.code.pc (guard ++ body))
  accepted : s'.Clean → s.Clean ∧ ∃ (c : Disjunction) (then_ : Stmt) (items : List Item)
    (op : Comparison) (t : SymbolTable),
    s.tokens.upcoming = [.keyword .ifKw, .mark .leftParen] ++ c.lexemes ++ .mark .rightParen ::
      then_.lexemes ++ s'.tokens.upcoming ∧
    guard = guardItems s.code.pc items op ∧ then_.proper = true ∧
    (then_.endsOpen = true → s'.tokens.peek.kind ≠ .keyword .elseKw) ∧
    Disjunction.Compiles rule s.table s.code.pc c items op t ∧
    stmtRule s.place t (s.code.pc + Items.size items + 3) then_ body s'.table

theorem thenBranch_ensures (innerStmt : Executes nested stmtRule)
    (inner : Realizes expr Expr.lexemes rule) (valid : s.Valid)
    (mark : s.tokens.peek.kind = .keyword .ifKw) {f : Label → Compile Unit}
    {post : Unit → Compiler → Prop}
    (rest : ∀ onFalse s' guard body, Guarded stmtRule rule s s' onFalse guard body →
      Ensures (f onFalse) s' post) :
    Ensures (do
      scan
      expect (.mark .leftParen)
      let onFalse ← guarded expr
      nested
      f onFalse) s post := by
  refine .opening valid mark fun s2 front => ?_
  have start : s2.code.pc = s.code.pc := front.pc
  refine .bind (guarded_ensures inner front.valid) ?_
  rintro onFalse s3 ⟨guard, extends1, await1, waiting, accepted1⟩
  refine .bind (innerStmt s3 extends1.valid) ?_
  rintro _ s4 ⟨body, extends2, await2, accepted2⟩
  rw [extends1.place, front.place] at await2
  refine rest onFalse s4 guard body ⟨(front.toExtends.trans extends1).trans extends2, await1, await2,
    ?_, fun clean => ?_⟩
  · rw [waiting, slots_append, slots_eq_nil (await2 .fails (by simp)), start]
    rfl
  · obtain ⟨clean, then_, reads2, proper, notElse, compiles2⟩ := accepted2 clean
    obtain ⟨clean, c, items, op, reads1, rfl, compiles1⟩ := accepted1 clean
    obtain ⟨clean, reads, _⟩ := front.accepted clean
    rw [front.table, start] at compiles1
    rw [extends1.place, front.place, extends1.pc, start, size_guardItems,
      ← Nat.add_assoc] at compiles2
    refine ⟨clean, c, then_, items, op, s3.table, ?_, by rw [start], proper, notElse, compiles1,
      compiles2⟩
    simp [reads, reads1, reads2]

theorem ifStatement_performs (innerStmt : Executes nested stmtRule)
    (inner : Realizes expr Expr.lexemes rule) (valid : s.Valid)
    (mark : s.tokens.peek.kind = .keyword .ifKw) :
    Ensures (ifStatement nested expr) s fun _ s' =>
      s.Performs s' (CompilesIn stmtRule rule) := by
  refine thenBranch_ensures innerStmt inner valid mark fun onFalse s1 guard body branch => ?_
  have awaitBoth : Await (.fails :: s.place.exits) (guard ++ body) :=
    await_append.mpr ⟨branch.awaitGuard.mono (by simp), branch.awaitBody.mono (by simp)⟩
  refine .lookahead ?_
  split
  · next isElse =>
    refine .ofRun (jump_pending s1 .finish []) ?_
    have jump := jump_does branch.adds.valid none .finish (by decide)
    have three := branch.adds.trans jump.toExtends
    have waiting : onFalse = .pending (Items.slots .fails s.code.pc
        (guard ++ body ++ [.jump none (.waiting .finish)])) := by
      rw [branch.waiting, Items.slots_append _ _ (guard ++ body)]
      rfl
    rw [waiting]
    refine .bind (here_extends valid three (by decide)) ?_
    rintro _ s2 ⟨resolved, table, tokens, reporter⟩
    refine .bind (scan_keyword resolved.valid fun _ => by rw [tokens]; exact isElse)
      fun _ s3 scanned => ?_
    have four := resolved.trans scanned.toExtends
    refine .bind (innerStmt s3 four.valid) ?_
    rintro _ s4 ⟨other, extends3, await3, accepted3⟩
    rw [four.place] at await3
    have five := four.trans extends3
    rw [append_nil] at five
    have finish : Label.pending [s1.code.pc + 1] = .pending (Items.slots .finish s.code.pc
        (Items.resolve .fails (s.code.pc + Items.size (guard ++ body) + 3)
          (guard ++ body ++ [.jump none (.waiting .finish)]) ++ other)) := by
      rw [Items.slots_append, Items.slots_eq_nil (await3 .finish (by simp)),
        Items.slots_resolve_ne (by decide), Items.slots_append _ _ (guard ++ body),
        Items.slots_eq_nil (awaitBoth .finish (by simp)), branch.adds.pc]
      rfl
    have middle := three.pc
    simp only [size_append, size_cons, Item.size_jump, size_nil, Nat.add_zero,
      ← Nat.add_assoc] at middle finish
    rw [middle] at five
    rw [finish]
    refine .bind (here_extends valid five (by decide)) ?_
    rintro _ s5 ⟨resolved', table', tokens', reporter'⟩
    refine .pure ⟨_, resolved', ?_, fun clean => ?_⟩
    · refine .resolve (await_append.mpr ⟨?_, await3.mono (by simp)⟩) _
      refine .resolve (await_append.mpr ⟨awaitBoth.mono (by simp), ?_⟩) _
      exact await_jump (by simp) none
    · have clean : s4.Clean := by simpa only [Clean, reporter'] using clean
      obtain ⟨clean, else_, reads3, proper3, notElse, compiles3⟩ := accepted3 clean
      obtain ⟨clean, reads2, _⟩ := scanned.accepted clean
      have clean : s1.Clean := by simpa only [Clean, reporter] using clean
      obtain ⟨clean, c, then_, items, op, t, reads, rfl, proper, closed, condition, compiles⟩ :=
        branch.accepted clean
      rw [tokens] at reads2
      refine ⟨clean, .ifElse c then_ else_, ?_, ?_, ?_, ?_⟩
      · simp only at reads2
        simp [reads, reads2, reads3, tokens', lexemes]
      · have closed : then_.endsOpen = false := by
          cases isOpen : then_.endsOpen with
          | false => rfl
          | true => exact absurd isElse (closed isOpen)
        simp [Stmt.proper, proper, closed, proper3]
      · simpa only [endsOpen, tokens'] using notElse
      · rw [four.place, scanned.table, table, four.pc] at compiles3
        rw [table', five.pc]
        simp only [size_append, size_resolve, size_cons, Item.size_jump,
          size_nil, size_guardItems, Nat.add_zero, ← Nat.add_assoc] at compiles3 ⊢
        exact .ifElse condition compiles compiles3
  · next notElse =>
    rw [branch.waiting]
    refine .bind (here_extends valid branch.adds (by decide)) ?_
    rintro _ s2 ⟨resolved, table, tokens, reporter⟩
    refine .pure ⟨_, resolved, awaitBoth.resolve _, fun clean => ?_⟩
    have clean : s1.Clean := by simpa only [Clean, reporter] using clean
    obtain ⟨clean, c, then_, items, op, t, reads, rfl, proper, _, condition, compiles⟩ :=
      branch.accepted clean
    refine ⟨clean, .ifThen c then_, ?_, ?_, ?_, ?_⟩
    · simp [reads, tokens, lexemes]
    · simpa [Stmt.proper] using proper
    · intro _
      rw [tokens]
      exact notElse
    · rw [table, branch.adds.pc, size_append, size_guardItems]
      simpa [Nat.add_assoc] using CompilesIn.ifThen condition compiles

private theorem here_fresh (s : Compiler) : here .fresh s = .ok (.resolved s.code.pc, s) := rfl

private theorem jump_resolved (s : Compiler) (adr : Nat) :
    jump (.resolved adr) s = .ok (.resolved adr,
      { s with code := s.code.add (.jump none (.address adr)) }) := by
  simp [jump, withCode, Label.jump, Label.put, CodeBuffer.add, Item.jumpOp]

section

variable (innerStmt : Executes nested stmtRule)

include innerStmt

/-- A loop body leaves the labels of the loops around it alone, and its exits wait for the label
that it yields. -/
theorem inLoop_adds (valid : s.Valid) :
    Ensures (inLoop nested) s fun exit s' => ∃ items, s.Adds s' items ∧
      s'.loopExits = s.loopExits ∧ Await [.exit] items ∧
      exit = .pending (slots .exit s.code.pc items) ∧
      (s'.Clean → s.Clean ∧ ∃ stmt : Stmt, s.tokens.upcoming = stmt.lexemes ++ s'.tokens.upcoming ∧
        stmt.proper = true ∧ (stmt.endsOpen = true → s'.tokens.peek.kind ≠ .keyword .elseKw) ∧
        stmtRule { s.place with inLoop := true } s.table s.code.pc stmt items s'.table) := by
  refine .ofRun rfl ?_
  have inside : { s with loopExits := .fresh :: s.loopExits : Compiler }.Valid := by
    refine { valid with exits := ?_ }
    intro exit member
    rcases mem_cons.mp member with rfl | member
    · rfl
    · exact valid.exits exit member
  refine .bind (innerStmt _ inside) ?_
  rintro _ s1 ⟨items, extends1, await, accepted⟩
  have exits : s1.loopExits = .pending (slots .exit s.code.pc items) :: s.loopExits := by
    simpa [noteSlots, Label.fresh] using extends1.exits
  refine .get ?_
  simp only [exits]
  exact ⟨_, _, rfl, items, { extends1.toAdds with
    valid := { extends1.valid with exits := valid.exits } }, rfl, await, rfl, accepted⟩

theorem whileStatement_performs (inner : Realizes expr Expr.lexemes rule) (valid : s.Valid)
    (mark : s.tokens.peek.kind = .keyword .whileKw) :
    Ensures (whileStatement nested expr) s fun _ s' =>
      s.Performs s' (CompilesIn stmtRule rule) := by
  refine .opening valid mark fun s2 front => ?_
  have start : s2.code.pc = s.code.pc := front.pc
  refine .ofRun (here_fresh s2) ?_
  rw [start]
  refine .bind (guarded_ensures inner front.valid) ?_
  rintro onFalse s3 ⟨guard, extends1, await1, waiting, accepted1⟩
  rw [start] at waiting
  have two : s.Extends s3 guard := front.toExtends.trans extends1
  refine .bind (inLoop_adds innerStmt extends1.valid) ?_
  rintro exit s4 ⟨body, adds, exits, await2, leaving, accepted2⟩
  refine .ofRun (jump_resolved s4 s.code.pc) ?_
  have back : s4.Does { s4 with code := s4.code.add (.jump none (.address s.code.pc)) }
      [.jump none (.address s.code.pc)] [] True :=
    (code_does adds.valid [.jump none (.address s.code.pc)]
      (by simp [Without, Item.waitsFor]) []).imp fun _ => trivial
  have all := (two.toAdds.trans adds).trans back.toAdds
  have leaving : exit = .pending (Items.slots .exit s.code.pc
      (guard ++ body ++ [.jump none (.address s.code.pc)])) := by
    rw [leaving, Items.slots_append, Items.slots_append, Items.slots_eq_nil (await1 .exit (by simp)),
      two.pc, append_nil]
    rfl
  rw [leaving]
  refine .bind (here_adds valid all .exit) ?_
  rintro _ s5 ⟨resolved, exits5, table5, tokens5, reporter5⟩
  have finish := all.pc
  simp only [size_append, size_cons, Item.size_jump, size_nil, Nat.add_zero,
    ← Nat.add_assoc] at finish
  rw [finish] at resolved
  have waiting : onFalse = .pending (Items.slots .fails s.code.pc (Items.resolve .exit
      (s.code.pc + Items.size guard + Items.size body + 3)
      (guard ++ body ++ [.jump none (.address s.code.pc)]))) := by
    rw [waiting, Items.slots_resolve_ne (by decide), Items.slots_append, Items.slots_append,
      Items.slots_eq_nil (await2 .fails (by simp))]
    rfl
  rw [waiting]
  refine .bind (here_adds valid resolved .fails) ?_
  rintro _ s6 ⟨resolved', exits6, table6, tokens6, reporter6⟩
  have size := resolved.pc
  simp only [size_append, size_resolve, size_cons, Item.size_jump, size_nil,
    Nat.add_zero, ← Nat.add_assoc] at size
  rw [size] at resolved'
  -- Both labels are resolved now, so nothing waits for the loop around this one.
  have await : Await [] (Items.resolve .fails
      (s.code.pc + Items.size guard + Items.size body + 3) (Items.resolve .exit
        (s.code.pc + Items.size guard + Items.size body + 3)
        (guard ++ body ++ [.jump none (.address s.code.pc)]))) := by
    refine .resolve (.resolve ?_ _) _
    refine await_append.mpr ⟨await_append.mpr
      ⟨await1.mono (by simp), await2.mono (by simp)⟩, ?_⟩
    simp [Await, Without, Item.waitsFor]
  refine .pure ⟨_, ⟨resolved', ?_⟩, await.mono (by simp), fun clean => ?_⟩
  · rw [Items.slots_eq_nil (await .exit (by simp)), exits6, exits5, noteSlots_nil]
    simp only [exits, two.exits, Items.slots_eq_nil (await1 .exit (by simp)), noteSlots_nil]
  · have clean : s4.Clean := by simpa only [Clean, reporter6, reporter5] using clean
    obtain ⟨clean, stmt, reads2, proper, closed, compiles2⟩ := accepted2 clean
    obtain ⟨clean, c, items, op, reads1, rfl, compiles1⟩ := accepted1 clean
    obtain ⟨clean, reads, _⟩ := front.accepted clean
    have tokens : s6.tokens = s4.tokens := tokens6.trans tokens5
    refine ⟨clean, .loop c stmt, ?_, ?_, ?_, ?_⟩
    · simp [reads, reads1, reads2, tokens, lexemes]
    · simpa [Stmt.proper] using proper
    · simpa only [endsOpen, tokens] using closed
    · rw [start] at compiles1
      rw [front.table] at compiles1
      rw [two.place, two.pc] at compiles2
      rw [start, table6, table5]
      rw [start] at compiles2
      simp only [size_guardItems, ← Nat.add_assoc] at compiles2 ⊢
      exact .loop compiles1 compiles2

theorem singleStatement_executes (inner : Realizes expr Expr.lexemes rule) :
    Executes (singleStatement nested expr) (CompilesIn stmtRule rule) := by
  intro s valid
  refine .lookahead ?_
  split
  · exact designatorStatement_executes inner s valid
  · next mark => exact ifStatement_performs innerStmt inner valid mark
  · next mark => exact whileStatement_performs innerStmt inner valid mark
  · next mark => exact breakStatement_performs valid mark
  · next mark => exact returnStatement_performs inner valid mark
  · next mark => exact readStatement_performs inner valid mark
  · next mark => exact printStatement_performs inner valid mark
  · exact blockStatement_executes innerStmt s valid
  · next mark =>
    refine (scan_mark valid fun _ => mark).mono fun _ s1 scanned => ?_
    refine (Translates.ofStep scanned (by simp)).performs (fun _ => .empty)
      (by simp [lexemes, proper, endsOpen]) ?_
    rintro _ _ ⟨rfl, _⟩
    rw [scanned.table]
    exact .empty
  · exact Spoils.performs ((report_does valid _).andThen recoverStatement_problem)

end

theorem deepStatement_executes (rule : StmtTranslation) : Executes deepStatement rule := by
  intro s valid
  exact Spoils.performs ((report_does valid _).andThen fun valid problem =>
    .get (scanMany_problem valid problem _))

/-- Every statement that is accepted compiles as `Stmt.Compiles` says. -/
theorem statement_executes (levels : Nat) : Executes (statement levels) (Compiles levels) := by
  induction levels with
  | zero => exact deepStatement_executes _
  | succ levels ih =>
    intro s valid
    apply deeper_ensures (deepStatement_executes _ s valid)
    refine (singleStatement_executes ih (expression_realizes levels) _ (valid.atDepth _)).mono ?_
    rintro _ s' ⟨items, extension, await, accepted⟩
    exact ⟨items, extension.atDepth, await, accepted⟩

end Compile

end MicroJava

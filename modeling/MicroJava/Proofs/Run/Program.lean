import MicroJava.Proofs.Run.Declaration

/-! # Compiling methods and programs

A method adds its code to what is there. If a whole source was compiled without a problem, its
lexemes are those of a program, and the code consists of what its methods compile to, one after the
other.
-/

namespace MicroJava

open Syntax Compiler Items

namespace Compile

variable {s : Compiler} {method : EntityId}

/-! ## The head of a method -/

theorem parameterList_announces (ready : s.Ready) (known : s.table.contains method = true) :
    Ensures (parameterList method) s fun _ s' =>
      Announces s s' (·.elim [] Parameters.lexemes) (Parameters.Declare method) := by
  refine .lookahead ?_
  split
  · refine .bind (parameters_announces ready known) ?_
    rintro count s1 ⟨enters1, accepted1⟩
    refine .mono (modifyEntity_enters enters1.ready (enters1.contains known)
      (enters1.valid.table.modify_plain method (fun _ => rfl) fun _ => rfl)) ?_
    rintro _ s2 ⟨enters2, same⟩
    refine ⟨enters1.trans enters2, fun clean => ?_⟩
    subst same
    obtain ⟨before, ps, reads, rfl, last, t, all, table⟩ := accepted1 clean
    refine ⟨before, some ps, reads, ?_⟩
    simp only [table]
    exact .some all
  · exact .pure ⟨.refl ready, fun clean => ⟨clean, none, rfl, .none⟩⟩

private theorem withCode_grows (ready : s.Ready) {c : CodeBuffer} (same : c.bytes = s.code.bytes) :
    s.Grows { s with code := c } := by
  refine ⟨{ ready.valid with code := ?_ }, Nat.le_refl _, Nat.le_refl _, ready.inScope,
    rfl, rfl, rfl, rfl, .ofBytes same⟩
  obtain ⟨items, bytes⟩ := ready.valid.code
  exact ⟨items, by rw [same]; exact bytes⟩

theorem enterMain_ensures (ready : s.Ready) (name : String) (type : TypeId) (count adr : Nat) :
    Ensures (enterMain name type count adr) s fun _ s' => s.Grows s' ∧ s'.table = s.table ∧
      s'.code = { s.code with entry := if name = "main" then some adr else s.code.entry } ∧
      (s'.Clean → s.Clean ∧ s.tokens.upcoming = s'.tokens.upcoming ∧
        (name = "main" → type = .none ∧ count = 0)) := by
  unfold enterMain
  split
  · refine .check ready.valid fun s1 void => ?_
    refine .check void.valid fun s2 none => ?_
    have does := void.trans none
    have enters := does.enters ready
    refine ⟨_, _, rfl, enters.toGrows.trans (withCode_grows enters.ready rfl), does.table,
      congrArg (fun c => { c with entry := some adr }) enters.code, fun clean => ?_⟩
    obtain ⟨clean, reads, checked⟩ := does.accepted clean
    exact ⟨clean, reads, fun _ => by simpa using checked⟩
  · next other =>
    exact .pure ⟨(Enters.refl ready).toGrows, rfl, rfl, fun clean =>
      ⟨clean, rfl, fun main => absurd main other⟩⟩

/-! ## The code of a method -/

theorem methodCode_ensures (ready : s.Ready) (noLoops : s.loopExits = [])
    (near : s.code.farOffsets = 0) (parameterCount varCount : Nat) (type : TypeId) :
    Ensures (do
      code (·.enter parameterCount varCount)
      block (statement maxNesting)
      finishBody type) s fun _ s' =>
      s.Grows s' ∧ s'.code.farOffsets = 0 ∧ s'.code.entry = s.code.entry ∧
      s'.code.dataSize = s.code.dataSize ∧
      (s'.Clean → s.Clean ∧ ∃ stmts body,
        s.tokens.upcoming = .mark .leftBrace :: Stmt.listLexemes stmts ++ .mark .rightBrace ::
          s'.tokens.upcoming ∧ Stmt.listProper stmts = true ∧
        Stmt.Sequence (Stmt.Compiles maxNesting) ⟨s.place.returns, false⟩ s.table (s.code.pc + 3)
          stmts body s'.table ∧
        s'.code.bytes.toList = s.code.bytes.toList ++
          bytes s.code.pc (methodItems parameterCount varCount body type) ∧
        farCount s.code.pc (methodItems parameterCount varCount body type) = 0) := by
  refine .bind (emit_does ready.valid ⟨rfl, rfl⟩) fun _ s1 entered => ?_
  refine .bind (block_performsAll (statement_executes maxNesting) entered.valid) ?_
  rintro _ s2 ⟨body, extends2, await, accepted⟩
  refine .bind (code_ensures extends2.valid (CodeBuffer.finishMethod_eq _ type)
    (CodeBuffer.straight_finishItems type)) fun _ s3 finished => ?_
  have whole : s.Extends s3 (methodItems parameterCount varCount body type) :=
    (entered.toExtends.trans extends2).trans finished.toExtends
  refine .get (.ofRun rfl ?_)
  have ready3 : s3.Ready := ⟨finished.valid, by rw [whole.scopes]; exact ready.inScope⟩
  have cleared := withCode_grows ready3 (c := s3.code.clearFarOffsets) rfl
  refine (reportIf_does cleared.valid _ _).mono fun _ s4 checked => ?_
  have sameCode : s4.code = s3.code.clearFarOffsets := checked.code
  have frame := CodeBuffer.assemble_frame s.code (methodItems parameterCount varCount body type)
  have exits : s3.loopExits = s.loopExits := by
    rw [whole.exits, noLoops]
    rfl
  -- Outside of all loops no jump of the body is left to be filled in.
  have settled : Await [] (methodItems parameterCount varCount body type) := by
    have none : s.place.exits = [] := by simp [Place.exits, Compiler.place, noLoops]
    rw [entered.place, none] at await
    have front : Await [] [.plain .enter [(parameterCount : Int), varCount] ⟨rfl, rfl⟩] :=
      Straight.await (by simp [Item.isJump]) _
    exact await_append.mpr ⟨await_append.mpr ⟨front, await⟩,
      (CodeBuffer.straight_finishItems type).await _⟩
  have continues : s.code.Continues s3.code :=
    ⟨_, settled, by rw [whole.code, CodeBuffer.toList_assemble]⟩
  have grows : s.Grows s3 :=
    ⟨finished.valid, Nat.le_of_eq (congrArg Array.size whole.entities.symm), whole.types, ready3.inScope,
      congrArg List.tail whole.scopes, whole.limits, whole.method, exits, continues⟩
  refine ⟨(grows.trans cleared).trans (checked.enters cleared.ready).toGrows, ?_, ?_, ?_,
    fun clean => ?_⟩
  · rw [sameCode]
    rfl
  · rw [sameCode, ← frame.1, ← whole.code]
    rfl
  · rw [sameCode, ← frame.2, ← whole.code]
    rfl
  · obtain ⟨clean, reads3, none⟩ := checked.accepted clean
    obtain ⟨clean, reads2, _⟩ := finished.accepted clean
    obtain ⟨clean, stmts, reads1, proper, sequence⟩ := accepted clean
    obtain ⟨clean, reads, _⟩ := entered.accepted clean
    have sameTable : s4.table = s2.table := checked.table.trans finished.table
    have base : s1.code.pc = s.code.pc + 3 := entered.pc
    have none : s3.code.farOffsets = 0 := by simpa using none
    refine ⟨clean, stmts, body, ?_, proper, ?_, ?_, ?_⟩
    · simp only at reads3
      simp [reads, reads1, reads2, reads3]
    · have place : s1.place = ⟨s.place.returns, false⟩ := by
        rw [entered.place]
        simp [Compiler.place, noLoops]
      rw [sameTable]
      rw [entered.table, base, place] at sequence
      exact sequence
    · rw [sameCode]
      change s3.code.bytes.toList = _
      rw [whole.code, CodeBuffer.toList_assemble]
    · rw [whole.code, CodeBuffer.farOffsets_assemble, near, Nat.zero_add] at none
      exact none

/-- What compiling a method from its parameters on says about it. -/
def BodyAccepts (s s' : Compiler) (method : EntityId) (m : Method) (type : TypeId) : Prop :=
  ∃ body t₂ t₃,
    s.tokens.upcoming = m.parameters.elim [] Parameters.lexemes ++ .mark .rightParen ::
      m.locals.flatMap VarDecl.lexemes ++ .mark .leftBrace :: Stmt.listLexemes m.body ++
        .mark .rightBrace :: s'.tokens.upcoming ∧
    Stmt.listProper m.body = true ∧ Parameters.Declare method s.table m.parameters t₂ ∧
    VarDecl.DeclareAll (t₂.modify method fun e => { e with locals := t₂.declared }) m.locals t₃ ∧
    t₃.varCount ≤ s.limits.locals ∧
    (m.name = "main" → type = .none ∧ (t₃.entity method).parameterCount = 0) ∧
    Stmt.Sequence (Stmt.Compiles maxNesting) ⟨(t₃.entity method).type, false⟩ t₃ (s.code.pc + 3)
      m.body body s'.table ∧
    s'.code.bytes.toList = s.code.bytes.toList ++ Items.bytes s.code.pc
      (methodItems (t₃.entity method).parameterCount t₃.varCount body type) ∧
    Items.farCount s.code.pc
      (methodItems (t₃.entity method).parameterCount t₃.varCount body type) = 0

theorem methodBody_ensures (ready : s.Ready) (noLoops : s.loopExits = [])
    (near : s.code.farOffsets = 0) (inMethod : s.method = some method) (name : String)
    (type : TypeId) (adr : Nat) :
    Ensures (methodBody method name type adr) s fun _ s' =>
      s.Grows s' ∧ s'.code.farOffsets = 0 ∧ s'.code.dataSize = s.code.dataSize ∧
      s'.code.entry = (if name = "main" then some adr else s.code.entry) ∧
      (s'.Clean → s.Clean ∧ ∀ result, ∃ parameters locals body,
        BodyAccepts s s' method ⟨result, name, parameters, locals, body⟩ type) := by
  have known := ready.valid.method method inMethod
  simp only [methodBody, methodHead, bind_assoc]
  refine .bind (parameterList_announces ready known) ?_
  rintro _ s1 ⟨enters1, accepted1⟩
  obtain ⟨scope, run, declared, _⟩ := currentScope_run enters1.inScope
  refine .ofRun run ?_
  have known1 := enters1.contains known
  refine .bind (modifyEntity_enters enters1.ready known1 ?_) ?_
  · refine enters1.valid.table.modify method (fun _ => enters1.valid.table.contains_type known1)
      fun _ other isLocal => ?_
    rw [declared] at isLocal
    exact declared_contains enters1.valid.table other isLocal
  rintro _ s2 ⟨enters2, same⟩
  refine .expectMark enters2.valid fun s3 closed => ?_
  have enters3 := closed.enters enters2.ready
  refine .bind (varDeclarations_announces enters3.ready) ?_
  rintro _ s4 ⟨enters4, accepted4⟩
  have enters := ((enters1.trans enters2).trans enters3).trans enters4
  refine .entityOf (enters.contains known) ?_
  obtain ⟨scope4, run, _, varCount⟩ := currentScope_run enters.inScope
  refine .ofRun run (.get ?_)
  refine .check enters.valid fun s5 fits => ?_
  have enters5 := fits.enters enters.ready
  have enters := enters.trans enters5
  refine .bind (enterMain_ensures enters.ready name type _ adr) ?_
  rintro _ s6 ⟨grows6, table6, code6, accepted6⟩
  have noLoops6 : s6.loopExits = [] := by rw [grows6.exits, enters.exits, noLoops]
  have near6 : s6.code.farOffsets = 0 := by rw [code6, enters.code]; exact near
  refine (methodCode_ensures grows6.ready noLoops6 near6 _ _ type).mono ?_
  rintro _ s7 ⟨grows7, near7, entry, dataSize, accepted7⟩
  refine ⟨(enters.toGrows.trans grows6).trans grows7, near7, ?_, ?_, fun clean => ?_⟩
  · rw [dataSize, code6, enters.code]
  · rw [entry, code6, enters.code]
  · obtain ⟨clean, stmts, body, reads7, proper, sequence, bytes, farCount⟩ := accepted7 clean
    obtain ⟨clean, reads6, main⟩ := accepted6 clean
    obtain ⟨clean, reads5, capacity⟩ := fits.accepted clean
    obtain ⟨clean, ds, reads4, locals⟩ := accepted4 clean
    obtain ⟨clean, reads3, _⟩ := closed.accepted clean
    have table : s6.table = s4.table := table6.trans fits.table
    have pc : s6.code.pc = s.code.pc := by rw [code6, enters.code]; rfl
    have sameBytes : s6.code.bytes = s.code.bytes := by rw [code6, enters.code]
    have returns : s6.place.returns = (s4.table.entity method).type := by
      simp only [Compiler.place, grows6.method, enters.method, inMethod, Option.elim_some, table]
    have limits : s4.limits = s.limits := by rw [← fits.limits, enters.limits]
    rw [returns, table, pc] at sequence
    rw [pc, varCount, sameBytes] at bytes
    rw [pc, varCount] at farCount
    rw [varCount, limits] at capacity
    rw [closed.table] at locals
    subst same
    obtain ⟨clean, ps, reads1, parameters⟩ := accepted1 clean
    refine ⟨clean, fun result => ⟨ps, ds, stmts, body, s1.table, s4.table, ?_, proper, parameters, ?_,
      by simpa using capacity, main, sequence, bytes, farCount⟩⟩
    · simp only at reads3
      simp [reads1, reads3, reads4, reads5, reads6, reads7]
    · rw [declared] at locals
      exact locals

/-! ## Methods -/

theorem resultType_announces (ready : s.Ready)
    (expected : s.Clean → s.tokens.peek.kind = .ident ∨ s.tokens.peek.kind = .keyword .voidKw) :
    Ensures resultType s fun type s' => s'.table.types.contains type = true ∧
      Announces s s' (·.elim [.keyword .voidKw] TypeName.lexemes) (ResultType · · type ·) := by
  refine .lookahead ?_
  split
  · refine (typeName_announces ready).mono ?_
    rintro type s1 ⟨known, enters, accepted⟩
    refine ⟨known, enters, fun clean => ?_⟩
    obtain ⟨clean, name, reads, resolved⟩ := accepted clean
    exact ⟨clean, some name, reads, .type resolved⟩
  · next other =>
    refine .bind (scan_keyword ready.valid fun clean => (expected clean).resolve_left other)
      fun _ s1 void => ?_
    refine .pure ⟨void.valid.table.contains_basic (by decide), void.enters ready, fun clean => ?_⟩
    obtain ⟨clean, reads, _⟩ := void.accepted clean
    rw [void.table]
    exact ⟨clean, none, reads, .void⟩

/-- The effect of compiling a method. -/
def Builds (s s' : Compiler) : Prop :=
  s.Grows s' ∧ s'.code.farOffsets = 0 ∧ s'.code.dataSize = s.code.dataSize ∧
  (s'.Clean → s.Clean ∧ ∃ (m : Method) (items : List Item),
    s.tokens.upcoming = m.lexemes ++ s'.tokens.upcoming ∧
    Stmt.listProper m.body = true ∧ m.Compiles s.limits s.table s.code.pc items s'.table ∧
    s'.code.bytes.toList = s.code.bytes.toList ++ Items.bytes s.code.pc items ∧
    s'.code.entry = if m.name = "main" then some s.code.pc else s.code.entry)

/-- What a step in a method does to the state around it. -/
theorem Grows.outside {s' : Compiler} (valid : s.Valid)
    (grows : { s with method := some method : Compiler }.Grows s') :
    s.Grows { s' with method := s.method } := by
  refine { grows with valid := { grows.valid with method := fun id is => ?_ }, method := rfl }
  exact grows.contains (valid.method id is)

/-- What holds between two methods. -/
structure BetweenMethods (s : Compiler) : Prop where
  valid : s.Valid
  inScope : s.table.scopes ≠ []
  outside : s.method = none
  noLoops : s.loopExits = []
  near : s.code.farOffsets = 0

theorem BetweenMethods.ready (between : BetweenMethods s) : s.Ready :=
  ⟨between.valid, between.inScope⟩

theorem methodFrom_builds (between : BetweenMethods s)
    (expected : s.Clean → s.tokens.peek.kind = .ident ∨ s.tokens.peek.kind = .keyword .voidKw) :
    Ensures methodFrom s fun _ s' => Builds s s' := by
  refine .bind (resultType_announces between.ready expected) ?_
  rintro type s1 ⟨knownType, enters1, accepted1⟩
  refine .bind (expectName_does enters1.valid) fun name s2 named => ?_
  have enters2 := named.enters enters1.ready
  refine .bind (declare_enters enters2.ready .method name
    (enters2.contains_type knownType)) ?_
  rintro method s3 ⟨enters3, known, accepted3⟩
  refine .ofRun rfl ?_
  refine .bind (modifyEntity_enters enters3.ready known
    (enters3.valid.table.modify_plain method (fun _ => rfl) fun _ => rfl)) ?_
  rintro _ s4 ⟨enters4, same4⟩
  refine .ofRun rfl ?_
  have enters := ((enters1.trans enters2).trans enters3).trans enters4
  have valid5 : { s4 with method := some method : Compiler }.Valid := by
    refine { enters.valid with method := ?_ }
    rintro _ ⟨rfl⟩
    exact enters4.contains known
  refine .expectMark valid5 fun s6 opened => ?_
  have enters6 := opened.enters ⟨valid5, enters.inScope⟩
  have code6 : s6.code = s.code := enters6.code.trans enters.code
  have run := methodBody_ensures (s := { s6 with table := s6.table.openScope })
    (openScope_ready enters6.valid)
    (enters6.exits.trans (enters.exits.trans between.noLoops)) (by simp only [code6, between.near])
    enters6.method name type s3.code.pc
  refine .bind (inScope_ensures run fun s7 holds => holds.1.inScope) ?_
  rintro _ _ ⟨s7, ⟨grows7, near7, dataSize, entry, accepted7⟩, rfl, rfl⟩
  have left := Grows.leave enters6.inScope grows7
  have known7 := left.contains (enters6.contains (enters4.contains known))
  refine .bind (modifyEntity_enters left.ready known7 ?_) ?_
  · refine left.valid.table.modify method (fun _ => left.valid.table.contains_type known7)
      fun _ other isLocal => ?_
    exact declared_contains grows7.valid.table other isLocal
  rintro _ s8 ⟨enters8, same8⟩
  have whole := (enters6.toGrows.trans left).trans enters8.toGrows
  refine ⟨_, _, rfl, ?_, ?_, ?_, fun clean => ?_⟩
  · have grows := enters.toGrows.trans (Grows.outside enters.valid whole)
    rw [enters.method, between.outside] at grows
    exact grows
  · rw [same8]
    exact near7
  · rw [same8, ← code6]
    exact dataSize
  · subst same8
    obtain ⟨clean, body⟩ := accepted7 clean
    obtain ⟨clean, reads6, _⟩ := opened.accepted clean
    have table6 : s6.table = s4.table := opened.table
    have limits6 : s6.limits = s.limits := enters6.limits.trans enters.limits
    subst same4
    obtain ⟨clean, tokens3, entered⟩ := accepted3 clean
    obtain ⟨clean, reads2, nonempty⟩ := named.accepted clean
    obtain ⟨before, result, reads1, resultType⟩ := accepted1 clean
    obtain ⟨fresh, rfl, table3⟩ := entered nonempty
    have code3 : s3.code = s.code := by rw [enters3.code, enters2.code, enters1.code]
    obtain ⟨parameters, locals, stmts, items, t2, t3, reads, proper, declare, vars, capacity, main,
      sequence, bytes, farCount⟩ := body result
    simp only [named.table] at fresh table3 table6 declare vars capacity main sequence bytes farCount ⊢
    simp only [table6, table3, code3, code6, limits6] at declare sequence bytes farCount capacity entry
    refine ⟨before, ⟨result, name, parameters, locals, stmts⟩, _, ?_, proper,
      .mk resultType fresh declare vars capacity main sequence farCount, ?_, ?_⟩
    · simp only [tokens3] at reads6
      simp [Method.lexemes, reads1, reads2, reads6, reads]
    · exact bytes
    · exact entry

private theorem recover_problem (valid : s.Valid) (problem : ¬ s.Clean)
    (stop : SymbolTable → Token → Bool) :
    Spoils (do scan; let s ← MonadState.get; skipUntil (stop s.table); holdReports) s :=
  (scanMany_problem valid problem 1).andThen fun valid problem =>
    .get (skipUntil_problem valid problem _)

theorem Builds.between {s' : Compiler} (builds : Builds s s') (between : BetweenMethods s) :
    BetweenMethods s' :=
  ⟨builds.1.valid, builds.1.inScope, builds.1.method.trans between.outside,
    builds.1.exits.trans between.noLoops, builds.2.1⟩

/-- Nothing is said about a step after a problem but that methods can follow. -/
theorem Builds.ofProblem {s1 s2 : Compiler} (does : s.Does s1 [] [] False)
    (between : BetweenMethods s) (problem : ¬ s1.Clean) (builds : Builds s1 s2) : Builds s s2 := by
  obtain ⟨grows, near, dataSize, accepted⟩ := builds
  have code : s1.code = s.code := does.code
  refine ⟨(does.enters between.ready).toGrows.trans grows, near, ?_, fun clean => ?_⟩
  · rw [dataSize, code]
  · exact absurd (accepted clean).1 problem

/-- A method, unless the source ends. -/
theorem methodOrEnd_builds (between : BetweenMethods s)
    (expected : s.Clean → s.tokens.peek.kind = .ident ∨ s.tokens.peek.kind = .keyword .voidKw) :
    Ensures (do if (← lookahead) = .eof then pure () else methodFrom) s fun _ s' => Builds s s' := by
  refine .lookahead ?_
  split
  · next ended =>
    refine .pure ⟨(Enters.refl between.ready).toGrows, between.near, rfl,
      fun clean => ?_⟩
    simp [ended] at expected
    exact absurd clean expected
  · exact methodFrom_builds between expected

theorem methodDeclaration_builds (between : BetweenMethods s) :
    Ensures methodDeclaration s fun _ s' => Builds s s' := by
  refine .lookahead ?_
  split
  · refine .bind (report_does between.valid _) ?_
    rintro _ s1 ⟨reported, problem⟩
    refine .bind (recover_problem reported.valid problem
      fun table token => token.kind.startsMethod || table.namesType token) ?_
    rintro _ s2 ⟨skipped, problem⟩
    have does := (reported.trans skipped).imp And.right
    have enters := does.enters between.ready
    refine (methodOrEnd_builds ⟨enters.valid, enters.inScope,
      enters.method.trans between.outside, enters.exits.trans between.noLoops, by rw [enters.code]; exact between.near⟩
      fun clean => absurd clean problem).mono fun _ s3 builds => ?_
    exact builds.ofProblem does between problem
  · next found =>
    refine methodOrEnd_builds between fun _ => ?_
    simpa [Classical.or_iff_not_imp_left] using found

/-- The effect of compiling methods one after the other. -/
def BuildsAll (s s' : Compiler) : Prop :=
  s.Grows s' ∧ s'.code.farOffsets = 0 ∧ s'.code.dataSize = s.code.dataSize ∧
  (s'.Clean → s.Clean ∧ ∃ (ms : List Method) (segments : List (List Item)),
    s.tokens.upcoming = ms.flatMap Method.lexemes ++ s'.tokens.upcoming ∧
    (ms.all fun m => Stmt.listProper m.body) = true ∧
    Method.CompileAll s.limits s.table s.code.pc ms segments s'.table ∧
    s'.code.bytes.toList = s.code.bytes.toList ++ Items.bytes s.code.pc segments.flatten ∧
    s'.code.entry = entryAfter s.code.entry s.code.pc ms segments)

theorem Builds.all {s1 s2 : Compiler} (first : Builds s s1) (rest : BuildsAll s1 s2) :
    BuildsAll s s2 := by
  obtain ⟨grows1, _, dataSize1, accepted1⟩ := first
  obtain ⟨grows2, near, dataSize2, accepted2⟩ := rest
  refine ⟨grows1.trans grows2, near, dataSize2.trans dataSize1, fun clean => ?_⟩
  obtain ⟨clean, ms, segments, reads2, proper2, compiled2, bytes2, entry2⟩ := accepted2 clean
  obtain ⟨clean, m, items, reads1, proper1, compiled1, bytes1, entry1⟩ := accepted1 clean
  have pc : s1.code.pc = s.code.pc + size items := CodeBuffer.pc_of_bytes bytes1
  rw [grows1.limits, pc] at compiled2
  rw [pc, bytes1] at bytes2
  rw [pc, entry1] at entry2
  refine ⟨clean, m :: ms, items :: segments, ?_, ?_, .cons compiled1 compiled2, ?_, entry2⟩
  · simp [reads1, reads2]
  · simp [proper1, proper2]
  · simp [bytes2, bytes_append]

theorem methods_buildAll (between : BetweenMethods s) :
    Ensures methods s fun _ s' => BuildsAll s s' := by
  refine repeatWhile_ensures (i := fun _ s => BetweenMethods s) (r := fun _ s _ s' => BuildsAll s s')
    ?stop ?step between
  case stop =>
    intro _ s between
    refine ⟨(Enters.refl between.ready).toGrows, between.near, rfl, fun clean =>
      ⟨clean, [], [], rfl, rfl, .nil, ?_, rfl⟩⟩
    simp [bytes]
  case step =>
    intro _ s between _
    refine (methodDeclaration_builds between).mono fun _ s1 builds => ?_
    exact ⟨builds.between between, fun _ s2 all => builds.all all⟩

/-! ## Programs -/

theorem globalDeclaration_announces (ready : s.Ready) :
    Ensures globalDeclaration s fun _ s' =>
      Announces s s' Decl.lexemes (Decl.Declares s.limits · · ·) := by
  refine .lookahead ?_
  split
  · exact constDeclaration_announces ready
  · refine (varDeclaration_announces ready).mono ?_
    rintro _ s1 ⟨enters, accepted⟩
    refine ⟨enters, fun clean => ?_⟩
    obtain ⟨clean, d, reads, type, t1, resolved, names⟩ := accepted clean
    exact ⟨clean, .vars d, reads, .vars resolved names⟩
  · exact classDeclaration_announces ready
  · refine .mono ((report_does ready.valid _).andThen fun valid problem =>
      recover_problem valid problem fun table token =>
        token.kind.startsDeclaration || table.namesType token) ?_
    rintro _ s1 ⟨skipped, problem⟩
    exact ⟨skipped.enters ready, fun clean => absurd clean problem⟩

theorem globals_announce (ready : s.Ready) :
    Ensures (repeatWhile (fun kind => kind != .mark .leftBrace && kind != .eof)
      (fun _ => globalDeclaration) ()) s fun _ s' =>
      Announces s s' (·.flatMap Decl.lexemes) (Decl.DeclareAll s.limits · · ·) := by
  refine repeatWhile_announces (fun _ => .nil) .cons (fun s1 ready same => ?_) ready rfl
  rw [← same]
  exact globalDeclaration_announces ready

/-- Methods can follow the declarations of a program. -/
theorem globalDeclarations_ensures (between : BetweenMethods s) :
    Ensures globalDeclarations s fun _ s' => s.Grows s' ∧ BetweenMethods s' ∧
      ∃ dataSize, s'.code = { s.code with dataSize } ∧
        (s'.Clean → s.Clean ∧ dataSize = s'.table.varCount ∧ ∃ decls,
          s.tokens.upcoming = decls.flatMap Decl.lexemes ++ .mark .leftBrace :: s'.tokens.upcoming ∧
          Decl.DeclareAll s.limits s.table decls s'.table ∧ dataSize ≤ s.limits.globals) := by
  refine .bind (globals_announce between.ready) ?_
  rintro _ s1 ⟨enters1, accepted1⟩
  obtain ⟨scope, run, _, varCount⟩ := currentScope_run enters1.inScope
  refine .ofRun run (.get ?_)
  refine .check enters1.valid fun s2 fits => ?_
  have enters := enters1.trans (fits.enters enters1.ready)
  refine .ofRun rfl ?_
  have grows3 := withCode_grows enters.ready
    (c := { s2.code with dataSize := scope.varCount }) rfl
  refine (expect_mark grows3.valid).mono fun _ s4 opened => ?_
  have enters4 := opened.enters grows3.ready
  have code4 : s4.code = { s.code with dataSize := scope.varCount } := by
    rw [enters4.code, enters.code]
  have grows := (enters.toGrows.trans grows3).trans enters4.toGrows
  refine ⟨grows, ⟨grows.valid, grows.inScope, grows.method.trans between.outside,
    grows.exits.trans between.noLoops, by rw [code4]; exact between.near⟩, _, code4,
    fun clean => ?_⟩
  obtain ⟨clean, reads3, _⟩ := opened.accepted clean
  obtain ⟨clean, reads2, capacity⟩ := fits.accepted clean
  obtain ⟨clean, decls, reads1, declared⟩ := accepted1 clean
  have table : s4.table = s1.table := opened.table.trans fits.table
  rw [enters1.limits] at capacity
  refine ⟨clean, by rw [varCount, table], decls, ?_, by rwa [table], by simpa using capacity⟩
  simp only at reads3
  simp [reads1, reads2, reads3]

theorem programBody_ensures (between : BetweenMethods s) :
    Ensures programBody s fun _ s' => s.Grows s' ∧
      (s'.Clean → s.Clean ∧ ∃ decls methods globals segments,
        s.tokens.upcoming = decls.flatMap Decl.lexemes ++ .mark .leftBrace ::
          methods.flatMap Method.lexemes ++ .mark .rightBrace :: s'.tokens.upcoming ∧
        (methods.all fun m => Stmt.listProper m.body) = true ∧
        Decl.DeclareAll s.limits s.table decls globals ∧ globals.varCount ≤ s.limits.globals ∧
        Method.CompileAll s.limits globals s.code.pc methods segments s'.table ∧
        (s'.table.findMethod "main").problems = [] ∧
        s'.code.bytes.toList = s.code.bytes.toList ++ bytes s.code.pc segments.flatten ∧
        s'.code.entry = entryAfter s.code.entry s.code.pc methods segments ∧
        s'.code.dataSize = globals.varCount) := by
  refine .bind (globalDeclarations_ensures between) ?_
  rintro _ s1 ⟨grows1, between1, _, code1, accepted1⟩
  refine .bind (methods_buildAll between1) ?_
  rintro _ s2 ⟨grows2, near, dataSize, accepted2⟩
  refine .expectMark grows2.valid fun s3 closed => ?_
  refine .bind (resolve_does closed.valid _) ?_
  rintro _ s4 ⟨_, main⟩
  have ending := closed.trans main
  refine .pure ⟨(grows1.trans grows2).trans (ending.enters grows2.ready).toGrows, fun clean => ?_⟩
  obtain ⟨clean, reads3, _, main⟩ := ending.accepted clean
  obtain ⟨clean, methods, segments, reads2, proper, compiled, bytes, entry⟩ := accepted2 clean
  obtain ⟨clean, rfl, decls, reads1, declared, capacity⟩ := accepted1 clean
  have code4 : s4.code = s2.code := ending.code
  rw [code1] at bytes entry dataSize compiled
  rw [grows1.limits] at compiled
  refine ⟨clean, decls, methods, s1.table, segments, ?_, proper, declared, capacity, ?_, ?_, ?_, ?_,
    ?_⟩
  · simp [reads1, reads2, reads3]
  · rw [ending.table]
    exact compiled
  · rw [ending.table, ← closed.table]
    exact main
  · rw [code4]
    exact bytes
  · rw [code4]
    exact entry
  · rw [code4, dataSize]

theorem program_ensures (valid : s.Valid) (fresh : s.table = .initial) (empty : s.code = .empty)
    (outside : s.method = none) (noLoops : s.loopExits = []) :
    Ensures program s fun _ s' => s.Grows s' ∧ s'.table.OnlyOutermost ∧
      (s'.Clean → s.Clean ∧ ∃ (p : Program) (globals final : SymbolTable) (segments : _),
        s.tokens.upcoming = p.lexemes ++ s'.tokens.upcoming ∧ p.proper = true ∧
        p.Compiles s.limits globals final segments ∧
        s'.table = final.leave.modify SymbolTable.initial.next (fun e =>
          { e with locals := final.declared }) ∧
        s'.code.bytes.toList = bytes 0 segments.flatten ∧
        s'.code.entry = entryAfter none 0 p.methods segments ∧
        s'.code.dataSize = globals.varCount) := by
  refine .bind (expect_keyword valid _) fun _ s1 started => ?_
  refine .bind (expectName_does started.valid) fun name s2 named => ?_
  have front := started.trans named
  have enters2 := front.enters ⟨valid, by rw [fresh]; decide⟩
  refine .bind (declare_enters enters2.ready .program name
    (enters2.valid.table.contains_basic (a := .none) (by decide))).withRun ?_
  rintro id s3 ⟨⟨enters3, known, accepted3⟩, run3⟩
  have enters := enters2.trans enters3
  have code : s3.code = .empty := enters.code.trans empty
  have run := programBody_ensures (s := { s3 with table := s3.table.openScope })
    ⟨(openScope_ready enters.valid).valid, List.cons_ne_nil _ _, enters.method.trans outside,
      enters.exits.trans noLoops, by rw [code]; rfl⟩
  refine .bind (inScope_ensures run fun s4 holds => holds.1.inScope) ?_
  rintro _ _ ⟨s4, ⟨grows4, accepted4⟩, rfl, rfl⟩
  have left := Grows.leave enters.inScope grows4
  refine (modifyEntity_enters left.ready (left.contains known) ?_).mono ?_
  · refine left.valid.table.modify id (fun inside => left.valid.table.contains_type inside)
      fun _ other isLocal => ?_
    exact declared_contains grows4.valid.table other isLocal
  rintro _ s5 ⟨enters5, same5⟩
  have table2 : s2.table = .initial := front.table.trans fresh
  refine ⟨(enters.toGrows.trans left).trans enters5.toGrows, ?_, fun clean => ?_⟩
  · obtain ⟨added, scopes⟩ := declare_scopes (by decide) run3
    refine ⟨added, ?_⟩
    rw [same5, ← table2, ← scopes]
    exact grows4.outer
  subst same5
  obtain ⟨clean, decls, methods, globals, segments, reads4, proper, declared, capacity, compiled, main,
    bytes, entry, dataSize⟩ := accepted4 clean
  obtain ⟨clean, tokens3, entered⟩ := accepted3 clean
  obtain ⟨before, reads2, _, nonempty⟩ := front.accepted clean
  obtain ⟨unused, rfl, table3⟩ := entered nonempty
  simp only [code, enters.limits, table3, table2] at *
  refine ⟨before, ⟨name, decls, methods⟩, globals, s4.table, segments, ?_, proper,
    ⟨unused, declared, capacity, compiled, main⟩, rfl, ?_, entry, dataSize⟩
  · rw [reads2, ← tokens3, reads4]
    simp [Program.lexemes]
  · exact bytes

end Compile

end MicroJava

import MicroJava.Proofs.Backpatching
import MicroJava.Proofs.Contracts

/-! # Finished methods are final

When a method was compiled, no slot in the code waits to be filled in, so nothing that is done with
code and labels later changes a byte before the end of the method. Compiling up to the closing brace
of a method depends on nothing behind that brace. So the code of the first methods of a source is
known as soon as they were read, whatever follows them.
-/

namespace MicroJava

open CodeBuffer

/-! ## Code before an address -/

/-- Whether the slots that wait for a label all lie behind an address. -/
def Label.Behind (n : Nat) (label : Label) : Prop :=
  ∀ slots, label = .pending slots → ∀ pos ∈ slots, n ≤ pos

theorem Label.Behind.resolved (n adr : Nat) : (Label.resolved adr).Behind n := by
  intro slots pending
  cases pending

namespace CodeBuffer

variable {n : Nat} {c c1 c2 : CodeBuffer}

/-- Whether code is at least as long as other code and has the same bytes before an address. -/
structure SameBefore (n : Nat) (c c' : CodeBuffer) : Prop where
  pc : c.pc ≤ c'.pc
  bytes : ∀ i < n, c'.bytes[i]? = c.bytes[i]?

theorem SameBefore.refl (n : Nat) (c : CodeBuffer) :
    c.SameBefore n c := ⟨Nat.le_refl _, fun _ _ => rfl⟩

theorem SameBefore.trans (first : c.SameBefore n c1) (second : c1.SameBefore n c2) :
    c.SameBefore n c2 where
  pc := Nat.le_trans first.pc second.pc
  bytes i before := (second.bytes i before).trans (first.bytes i before)

/-- Bytes at the end leave those before it alone. -/
theorem SameBefore.appended {bytes : List UInt8} (within : n ≤ c.pc)
    (same : c1.bytes = (c.append bytes).bytes) : c.SameBefore n c1 := by
  constructor
  · have length : c1.pc = (c.append bytes).pc := congrArg Array.size same
    rw [length, pc_append]
    omega
  · intro i before
    rw [same]
    exact getElem?_append_left bytes (by omega)

private theorem sameBefore_put (within : n ≤ c.pc) (op : Opcode) : c.SameBefore n (c.put op) :=
  .appended within (by rw [put_eq_append])

private theorem sameBefore_putOffset (within : n ≤ c.pc) (offset : Int) :
    c.SameBefore n (c.putOffset offset) :=
  .appended within (c.putOffset_spec offset).1

theorem SameBefore.isPrefix (same : c.SameBefore c.pc c1) : c.bytes.toList <+: c1.bytes.toList := by
  refine List.prefix_iff_getElem?.mpr fun i inside => ?_
  rw [Array.getElem?_toList, same.bytes i inside]
  simp

end CodeBuffer

namespace Label

variable {n adr : Nat} {label : Label} {c c1 : CodeBuffer}

/-- A jump to a label adds bytes, and a slot behind all others. -/
theorem put_behind (behind : label.Behind n) (within : n ≤ c.pc) :
    (label.put c).1.Behind n ∧ c.SameBefore n (label.put c).2 := by
  cases label with
  | resolved adr => exact ⟨behind, sameBefore_putOffset within _⟩
  | pending slots =>
    refine ⟨?_, .appended within rfl⟩
    rintro _ ⟨rfl⟩ pos member
    rcases List.mem_cons.mp member with rfl | member
    · exact within
    · exact behind slots rfl pos member

private theorem jump_behind (behind : label.Behind n) (within : n ≤ c.pc) (op : Opcode) :
    (label.jump op c).1.Behind n ∧ c.SameBefore n (label.jump op c).2 := by
  have opcode := sameBefore_put within op
  obtain ⟨behind, target⟩ := put_behind behind (Nat.le_trans within opcode.pc)
  exact ⟨behind, opcode.trans target⟩

private theorem patchAll_behind {slots : List Nat} (run : patchAll adr slots c = .ok c1)
    (behind : ∀ pos ∈ slots, n ≤ pos) : c.SameBefore n c1 := by
  induction slots generalizing c with
  | nil =>
    cases run
    exact .refl n _
  | cons pos slots ih =>
    have first := behind pos List.mem_cons_self
    unfold patchAll at run
    split at run
    · refine .trans ?_
        (ih run fun other member => behind other (List.mem_cons_of_mem _ member))
      constructor
      · exact Nat.le_of_eq (pc_patch ..).symm
      · intro i before
        exact getElem?_patch ⟨by omega, by omega⟩
    · cases run

/-- Resolving a label fills in its slots and nothing else. -/
theorem here_behind {label' : Label} (run : label.here c = .ok (label', c1))
    (behind : label.Behind n) : label'.Behind n ∧ c.SameBefore n c1 := by
  cases label with
  | resolved adr => cases run
  | pending slots =>
    simp only [here] at run
    cases filled : patchAll c.pc slots c with
    | error fault =>
      rw [filled] at run
      cases run
    | ok c' =>
      rw [filled] at run
      cases run
      exact ⟨.resolved n _, patchAll_behind filled (behind slots rfl)⟩

end Label

namespace Assembly

variable {n label : Nat} {s s' : Assembly} {c : CodeBuffer}

/-- Whether all slots that wait to be filled in lie behind an address in the code. -/
structure Behind (n : Nat) (s : Assembly) : Prop where
  within : n ≤ s.code.pc
  labels : ∀ label, (s.labels label).Behind n

theorem Behind.withCode (behind : s.Behind n) (same : s.code.SameBefore n c) :
    Behind n ⟨c, s.labels⟩ := ⟨Nat.le_trans behind.within same.pc, behind.labels⟩

theorem Behind.replace (behind : s.Behind n) (same : s.code.SameBefore n c) {newLabel : Label}
    (new : newLabel.Behind n) : (s.replace label (newLabel, c)).Behind n := by
  refine ⟨Nat.le_trans behind.within same.pc, fun other => ?_⟩
  by_cases isLabel : other = label
  · simpa [Assembly.replace, isLabel] using new
  · simpa [Assembly.replace, isLabel] using behind.labels other

/-- No operation changes a byte that lies before all slots that wait to be filled in. -/
theorem Behind.step (behind : s.Behind n) {action : CodeAction} (run : s.step action = .ok s') :
    s'.Behind n ∧ s.code.SameBefore n s'.code := by
  have within := behind.within
  have changed {f : CodeBuffer → CodeBuffer} (same : s.code.SameBefore n (f s.code)) :
      (s.mapCode f).Behind n ∧ s.code.SameBefore n (s.mapCode f).code :=
    ⟨behind.withCode same, same⟩
  cases action with
  | put op =>
    cases run
    exact changed (sameBefore_put within op)
  | number width x =>
    cases run
    exact changed (.appended within rfl)
  | offset x =>
    cases run
    exact changed (sameBefore_putOffset within x)
  | emit op operands =>
    cases run
    exact changed (.appended within rfl)
  | call x =>
    cases run
    have opcode := sameBefore_put within .call
    exact changed (opcode.trans (sameBefore_putOffset (Nat.le_trans within opcode.pc) _))
  | clear =>
    cases run
    exact changed ⟨Nat.le_refl _, fun _ _ => rfl⟩
  | target label =>
    cases run
    obtain ⟨new, same⟩ := Label.put_behind (behind.labels label) within
    exact ⟨behind.replace same new, same⟩
  | jump op label =>
    cases run
    obtain ⟨new, same⟩ := Label.jump_behind (behind.labels label) within op
    exact ⟨behind.replace same new, same⟩
  | jumpIfTrue comparison onTrue onFalse =>
    cases run
    cases comparison with
    | none =>
      have same := SameBefore.refl n s.code
      exact ⟨(behind.replace same (behind.labels onFalse)).replace same (behind.labels onTrue), same⟩
    | some comparison =>
      obtain ⟨new, same⟩ := Label.jump_behind (behind.labels onTrue) within comparison.jump
      exact ⟨(behind.replace same (behind.labels onFalse)).replace (.refl n _) new, same⟩
  | jumpIfFalse comparison onTrue onFalse =>
    cases run
    cases comparison with
    | none =>
      have same := SameBefore.refl n s.code
      exact ⟨(behind.replace same (behind.labels onTrue)).replace same (behind.labels onFalse), same⟩
    | some comparison =>
      obtain ⟨new, same⟩ := Label.jump_behind (behind.labels onFalse) within comparison.negate.jump
      exact ⟨(behind.replace same (behind.labels onTrue)).replace (.refl n _) new, same⟩
  | here label =>
    simp only [Assembly.step] at run
    cases resolved : (s.labels label).here s.code with
    | error fault =>
      rw [resolved] at run
      cases run
    | ok result =>
      rw [resolved] at run
      cases run
      obtain ⟨new, same⟩ := Label.here_behind resolved (behind.labels label)
      exact ⟨behind.replace same new, same⟩

/-- Nor do operations one after the other. -/
theorem Behind.run (behind : s.Behind n) {actions : List CodeAction} (run : s.run actions = .ok s') :
    s'.Behind n ∧ s.code.SameBefore n s'.code := by
  induction actions generalizing s with
  | nil =>
    cases run
    exact ⟨behind, .refl n _⟩
  | cons action rest ih =>
    simp only [Assembly.run] at run
    split at run
    · next s1 first =>
      obtain ⟨behind1, same1⟩ := behind.step first
      obtain ⟨behind2, same2⟩ := ih behind1 run
      exact ⟨behind2, same1.trans same2⟩
    · cases run

/-- If no slot waits to be filled in, what is done with code and labels only adds bytes. -/
theorem run_isPrefix {labels : Nat → Label}
    (settled : ∀ label slots, labels label = .pending slots → slots = [])
    {actions : List CodeAction} (run : Assembly.run ⟨c, labels⟩ actions = .ok s') :
    c.bytes.toList <+: s'.code.bytes.toList := by
  have behind : Behind c.pc ⟨c, labels⟩ := by
    refine ⟨Nat.le_refl _, fun label slots pending pos member => ?_⟩
    rw [settled label slots pending] at member
    cases member
  exact (behind.run run).2.isPrefix

end Assembly

/-! ## Between methods -/

namespace Compile

variable {start s s' : Compiler} {program : EntityId} {k n : Nat} {c : CodeBuffer}
  {final : Compiler}

/-- Whether another method follows. -/
def anotherMethod (s : Compiler) : Bool :=
  s.tokens.peek.kind != .mark .rightBrace && s.tokens.peek.kind != .eof

private theorem anotherMethod_congr (same : s'.tokens.peek.lexeme = s.tokens.peek.lexeme) :
    anotherMethod s' = anotherMethod s := by
  have kind : s'.tokens.peek.kind = s.tokens.peek.kind := congrArg Lexeme.kind same
  simp only [anotherMethod, kind]

/-- What is left to be done when some methods were compiled. -/
def remaining (program : EntityId) : Compile Unit := do
  methods
  closeProgram program
  expect .eof

/-- The entity of the program and the state when `k` methods were compiled, if there are so many. -/
def afterMethods (start : Compiler) : Nat → Option (EntityId × Compiler)
  | 0 => ((do scan; openProgram) start).toOption
  | k + 1 => do
    let (program, s) ← afterMethods start k
    if anotherMethod s then
      let (_, s') ← (methodDeclaration s).toOption
      return (program, s')
    else none

/-- How many tokens there are up to the closing brace of the method behind the first `k`, that brace
included, and the code when the method was compiled. Nothing if the source ends before. -/
def methodEnd (start : Compiler) (k : Nat) : Option (Nat × CodeBuffer) := do
  let (_, s) ← afterMethods start k
  if anotherMethod s then
    let (method, brace) ← (nextMethod s).toOption
    if method.isSome && brace.tokens.peek.kind = .mark .rightBrace then
      let (_, s') ← (closeMethod method brace).toOption
      return (brace.tokens.steps, s'.code)
    else none
  else none

private theorem toOption_eq_some {ε α : Type} {result : Except ε α} {a : α} :
    result.toOption = some a ↔ result = .ok a := by
  cases result <;> simp [Except.toOption]

private theorem afterMethods_zero : afterMethods start 0 = some (program, s) ↔
    (do scan; openProgram) start = .ok (program, s) := toOption_eq_some

private theorem afterMethods_succ : afterMethods start (k + 1) = some (program, s') ↔
    ∃ s, afterMethods start k = some (program, s) ∧ anotherMethod s = true ∧
      methodDeclaration s = .ok ((), s') := by
  simp [afterMethods, Option.bind_eq_some_iff, toOption_eq_some, Unique.exists_iff]

private theorem methodEnd_eq_some : methodEnd start k = some (n, c) ↔
    ∃ program s, afterMethods start k = some (program, s) ∧ anotherMethod s = true ∧
      ∃ brace method, nextMethod s = .ok (some method, brace) ∧
        brace.tokens.peek.kind = .mark .rightBrace ∧
        ∃ s', closeMethod (some method) brace = .ok ((), s') ∧ brace.tokens.steps = n ∧
          s'.code = c := by
  simp [methodEnd, Option.bind_eq_some_iff, toOption_eq_some, Unique.exists_iff,
    Option.isSome_iff_exists]

private theorem openProgram_between (between : BetweenMethods s) :
    Ensures openProgram s fun _ s' => BetweenMethods s' ∧ s.code.Continues s'.code := by
  refine .bind (expect_keyword between.valid _) fun _ s1 started => ?_
  refine .bind (expectName_does started.valid) fun name s2 named => ?_
  have enters2 := (started.trans named).enters between.ready
  refine .bind (declare_enters enters2.ready .program name
    (enters2.valid.table.contains_basic (a := .none) (by decide))) ?_
  rintro program s3 ⟨enters3, _, _⟩
  have enters := enters2.trans enters3
  refine .ofRun rfl ?_
  refine .bind (globalDeclarations_ensures ⟨(openScope_ready enters.valid).valid,
    List.cons_ne_nil _ _, enters.method.trans between.outside, enters.exits.trans between.noLoops,
    by simp only [enters.code, between.near]⟩) ?_
  rintro _ s4 ⟨grows, between4, _⟩
  exact .pure ⟨between4, enters.continues.trans grows.continues⟩

private theorem head_between (spacing : Nat) (limits : Limits) (text : List Char) :
    Ensures (do scan; openProgram) (.start (.spaced spacing) limits text) fun _ s =>
      BetweenMethods s ∧ empty.Continues s.code := by
  have valid : (Compiler.start (.spaced spacing) limits text).Valid :=
    Compiler.start_valid limits text fun _ => Nat.le_refl _
  refine .bind (scan_ensures valid) ?_
  rintro _ s1 ⟨scanned, _⟩
  have enters := scanned.enters ⟨valid, by simp [Compiler.start, SymbolTable.initial]⟩
  refine (openProgram_between ⟨enters.valid, enters.inScope, enters.method, enters.exits,
    by rw [enters.code]; rfl⟩).mono ?_
  rintro _ s2 ⟨between, continues⟩
  exact ⟨between, enters.continues.trans continues⟩

section Reached

variable (head : Ensures (do scan; openProgram) start fun _ s =>
  BetweenMethods s ∧ CodeBuffer.empty.Continues s.code)
include head

section

variable (reached : afterMethods start k = some (program, s))

include reached

/-- When a method was compiled, no loop is open and no jump waits for a label. -/
theorem afterMethods_between : BetweenMethods s ∧ empty.Continues s.code := by
  induction k generalizing s with
  | zero => exact head.of_run (afterMethods_zero.mp reached)
  | succ k ih =>
    obtain ⟨s0, before, _, run⟩ := afterMethods_succ.mp reached
    obtain ⟨between, continues⟩ := ih before
    have builds := (methodDeclaration_builds between).of_run run
    exact ⟨builds.between between, continues.trans builds.1.continues⟩

private theorem afterMethods_next (another : anotherMethod s = true) :
    ∃ s', afterMethods start (k + 1) = some (program, s') := by
  obtain ⟨_, s', run, _⟩ := methodDeclaration_builds (afterMethods_between head reached).1
  exact ⟨s', afterMethods_succ.mpr ⟨s, reached, another, run⟩⟩

/-- Later methods add their code to that of the first ones. -/
theorem afterMethods_continues {program' : EntityId} {j : Nat}
    (later : afterMethods start (k + j) = some (program', s')) : s.code.Continues s'.code := by
  induction j generalizing s' with
  | zero =>
    cases reached.symm.trans later
    exact .ofBytes rfl
  | succ j ih =>
    obtain ⟨s1, before, _, run⟩ := afterMethods_succ.mp later
    have builds := (methodDeclaration_builds (afterMethods_between head before).1).of_run run
    exact (ih before).trans builds.1.continues

/-- The compilation goes on from the state when some methods were compiled. -/
theorem source_eq_remaining : source start = remaining program s := by
  induction k generalizing s with
  | zero =>
    have cut : source = (do scan; openProgram) >>= remaining := by
      simp only [source, program_eq, bind_assoc]
      rfl
    rw [cut]
    exact bind_run (afterMethods_zero.mp reached)
  | succ k ih =>
    obtain ⟨s0, before, another, run⟩ := afterMethods_succ.mp reached
    have unrolled : methods s0 = methods s := by
      have wellFormed := (afterMethods_between head before).1.valid.tokens
      rw [methods, repeatWhile_eq Loop.methods.reads.1 Loop.methods.reads.2 wellFormed]
      exact (if_pos another).trans (bind_run run)
    rw [ih before]
    change (methods s0).bind _ = (methods s).bind _
    rw [unrolled]

end

end Reached

/-! ## Behind the methods -/

/-- Whether an action leaves the code alone. -/
def LeavesCode {α : Type} (m : Compile α) : Prop := ∀ s a s', m s = .ok (a, s') → s'.code = s.code

theorem LeavesCode.bind {α β : Type} {m : Compile α} {f : α → Compile β} (first : LeavesCode m)
    (second : ∀ a, LeavesCode (f a)) : LeavesCode (m >>= f) := by
  intro s b s' run
  obtain ⟨a, s1, run1, run2⟩ := run_bind run
  exact (second a s1 b s' run2).trans (first s a s1 run1)

private theorem expect_leavesCode (kind : TokenKind) : LeavesCode (expect kind) := by
  intro s a s' run
  obtain ⟨_, _, ⟨rfl, rfl⟩, run⟩ := run_bind run
  split at run
  · cases run
    rfl
  · cases run
    rfl

private theorem leaveScope_leavesCode : LeavesCode leaveScope := by
  intro s a s' run
  obtain ⟨_, _, ⟨rfl, rfl⟩, run⟩ := run_bind run
  cases closed : s.table.closeScope with
  | ok result =>
    simp only [closed] at run
    cases run
    rfl
  | error fault =>
    simp only [closed] at run
    cases run

private theorem modifyEntity_leavesCode (id : EntityId) (change : Entity → Entity) :
    LeavesCode (modifyEntity id change) := by
  intro s a s' run
  obtain ⟨_, _, ⟨rfl, rfl⟩, run⟩ := run_bind run
  split at run
  · cases run
    rfl
  · cases run

private theorem closeProgram_leavesCode (program : EntityId) :
    LeavesCode (closeProgram program) := by
  refine (expect_leavesCode _).bind fun _ => .bind ?_ fun _ =>
    leaveScope_leavesCode.bind fun _ => modifyEntity_leavesCode _ _
  rintro s _ _ ⟨rfl, rfl⟩
  rfl

private theorem remaining_continues (between : BetweenMethods s)
    (run : remaining program s = .ok ((), final)) : s.code.Continues final.code := by
  obtain ⟨_, s1, run1, rest⟩ := run_bind run
  have same := ((closeProgram_leavesCode program).bind fun _ => expect_leavesCode .eof) _ _ _ rest
  have builds := (methods_buildAll between).of_run run1
  rw [same]
  exact builds.1.continues

/-! ## Sources that begin alike -/

section Again

variable (wellFormed : start.tokens.WellFormed) (more : start.tokens.peek.kind ≠ .eof)
include wellFormed more

/-- The first methods are compiled in the same way whatever follows them. -/
theorem afterMethods_again (reached : afterMethods start k = some (program, s)) :
    start.tokens.Consumes s.tokens ∧ ∀ u u' r, start.tokens.Parallel u s.tokens u' →
      ∃ r', afterMethods (start.seeing u r) k = some (program, s.seeing u' r') := by
  induction k generalizing s with
  | zero =>
    have reads : Reads (do scan; openProgram) start False := (scan_reads more).andThen
    obtain ⟨consumes, repeats, _⟩ := reads wellFormed _ _ (afterMethods_zero.mp reached)
    refine ⟨consumes, fun u u' r parallel => ?_⟩
    obtain ⟨r', again⟩ := repeats.again u u' r parallel
    exact ⟨r', afterMethods_zero.mpr again⟩
  | succ k ih =>
    obtain ⟨s0, before, another, run⟩ := afterMethods_succ.mp reached
    obtain ⟨consumes0, again0⟩ := ih before
    obtain ⟨consumes, repeats, _⟩ :=
      Loop.methods.reads.2 () s0 another (consumes0.wellFormed wellFormed) _ _ run
    refine ⟨consumes0.trans consumes, fun u u' r parallel => ?_⟩
    obtain ⟨u0, front, back⟩ := parallel.split consumes0 consumes
    obtain ⟨r0, before'⟩ := again0 u u0 r front
    obtain ⟨r', run'⟩ := repeats.again u0 u' r0 back
    have another' : anotherMethod (s0.seeing u0 r0) = true :=
      (anotherMethod_congr back.alike.peek).trans another
    exact ⟨r', afterMethods_succ.mpr ⟨_, before', another', run'⟩⟩

omit wellFormed more in
/-- What follows the closing brace has no part in closing a method. -/
theorem closeMethod_again {method : EntityId × TypeId}
    (isBrace : s.tokens.peek.kind = .mark .rightBrace)
    (closed : closeMethod (some method) s = .ok ((), s')) {u : TokenStream}
    (isBrace' : u.peek.kind = .mark .rightBrace) (r : Reporter) :
    ∃ u' r', closeMethod (some method) (s.seeing u r) = .ok ((), s'.seeing u' r') := by
  have found {s : Compiler} (isBrace : s.tokens.peek.kind = .mark .rightBrace) :
      closeMethod (some method) s = (scan >>= fun _ => finishMethod method.1 method.2) s := by
    change ((if s.tokens.peek.kind = .mark .rightBrace then scan else report _) >>= fun _ =>
      finishMethod method.1 method.2 : Compile Unit) s = _
    rw [if_pos isBrace]
  rw [found isBrace] at closed
  obtain ⟨_, s1, ⟨rfl, rfl⟩, finished⟩ := run_bind closed
  obtain ⟨r', again⟩ := ((finishMethod_still _ _).run _ _ _ finished).2.2.2 u.advance
    ((u.pending.foldl .record r).advance u.advance.peek.pos)
  exact ⟨u.advance, r', (found (s := s.seeing u r) isBrace').trans again⟩

/-- A method ends at the same token and with the same code whatever follows its closing brace. -/
theorem methodEnd_again (ended : methodEnd start k = some (n, c)) {u : TokenStream}
    (other : u.WellFormed) (prev : u.prev.lexeme = start.tokens.prev.lexeme)
    (steps : u.steps = start.tokens.steps)
    (same : u.upcoming.take (n - start.tokens.steps + 1) =
      start.tokens.upcoming.take (n - start.tokens.steps + 1)) (r : Reporter) :
    methodEnd (start.seeing u r) k = some (n, c) := by
  obtain ⟨program, s, reached, another, brace, method, opened, isBrace, s', closed, rfl, rfl⟩ :=
    methodEnd_eq_some.mp ended
  obtain ⟨consumes, again⟩ := afterMethods_again wellFormed more reached
  have notEnd : s.tokens.peek.kind ≠ .eof := by
    simp only [anotherMethod, Bool.and_eq_true, bne_iff_ne] at another
    exact another.2
  obtain ⟨consumes', repeats, _⟩ := nextMethod_reads (p := False) notEnd
    (consumes.wellFormed wellFormed) _ _ opened
  obtain ⟨u', parallel⟩ := (consumes.trans consumes').parallel wellFormed other prev same
  obtain ⟨u1, front, back⟩ := parallel.split consumes consumes'
  obtain ⟨r1, reached'⟩ := again u u1 r front
  obtain ⟨r2, opened'⟩ := repeats.again u1 u' r1 back
  have isBrace' : u'.peek.kind = .mark .rightBrace :=
    (congrArg Lexeme.kind parallel.alike_end.peek).trans isBrace
  obtain ⟨u'', r3, closed'⟩ := closeMethod_again isBrace closed isBrace' r2
  have another' : anotherMethod (s.seeing u1 r1) = true :=
    (anotherMethod_congr back.alike.peek).trans another
  have length : u'.steps = brace.tokens.steps := by
    have := parallel.steps
    omega
  exact methodEnd_eq_some.mpr ⟨program, s.seeing u1 r1, reached', another', brace.seeing u' r2,
    method, opened', isBrace', s'.seeing u'' r3, closed', length, rfl⟩

end Again

/-- At its closing brace a method is compiled as a whole. -/
theorem afterMethods_of_methodEnd (ended : methodEnd start k = some (n, c)) :
    ∃ program s, afterMethods start (k + 1) = some (program, s) ∧ s.code = c := by
  obtain ⟨program, s, reached, another, brace, method, opened, _, s', closed, _, code⟩ :=
    methodEnd_eq_some.mp ended
  refine ⟨program, s', afterMethods_succ.mpr ⟨s, reached, another, ?_⟩, code⟩
  rw [methodDeclaration_eq]
  exact (bind_run opened).trans closed

/-! ## Finality -/

/-- What is final when `k` methods were compiled. -/
structure Final (start final : Compiler) (k : Nat) (program : EntityId) (s : Compiler) : Prop where
  /-- The compilation goes on from here to its end. -/
  rest : remaining program s = .ok ((), final)
  /-- If another method follows, it comes to an end too. -/
  next : anotherMethod s = true → ∃ s', afterMethods start (k + 1) = some (program, s')
  /-- No loop is open whose exit jumps wait for. -/
  noLoops : s.loopExits = []
  /-- The code consists of complete instructions, and no jump waits for a label. -/
  settled : CodeBuffer.empty.Continues s.code
  /-- Whatever is done with code and labels, if no label has slots that wait for it now. -/
  operations : ∀ labels : Nat → Label,
    (∀ label slots, labels label = .pending slots → slots = []) → ∀ actions after,
      Assembly.run ⟨s.code, labels⟩ actions = .ok after →
        s.code.bytes.toList <+: after.code.bytes.toList
  /-- All later methods leave the code as it is. -/
  later : ∀ j program' s', afterMethods start (k + j) = some (program', s') →
    s.code.Continues s'.code
  /-- So does the rest of the compilation. -/
  last : s.code.Continues final.code

private theorem afterMethods_final
    (head : Ensures (do scan; openProgram) start fun _ s => BetweenMethods s ∧
      empty.Continues s.code) (run : source start = .ok ((), final))
    (reached : afterMethods start k = some (program, s)) : Final start final k program s := by
  obtain ⟨between, settled⟩ := afterMethods_between head reached
  have rest : remaining program s = .ok ((), final) :=
    (source_eq_remaining head reached).symm.trans run
  constructor
  · exact rest
  · exact afterMethods_next head reached
  · exact between.noLoops
  · exact settled
  · exact fun labels none actions after operated => Assembly.run_isPrefix none operated
  · exact fun j program' s' later => afterMethods_continues head reached later
  · exact remaining_continues between rest

/-- Compiling an expression or a statement changes no byte of the code before it. -/
theorem nested_isPrefix (valid : s.Valid) (levels : Nat) :
    Ensures (expression levels) s (fun _ s' => s.code.bytes.toList <+: s'.code.bytes.toList) ∧
      Ensures (statement levels) s fun _ s' => s.code.bytes.toList <+: s'.code.bytes.toList := by
  have added {s' : Compiler} {items : List Item} (extension : s.Extends s' items) :
      s.code.bytes.toList <+: s'.code.bytes.toList := by
    rw [extension.code, toList_assemble]
    exact List.prefix_append ..
  constructor
  · refine (expression_realizes levels s valid).mono ?_
    rintro x s' ⟨_, items, extension, _⟩
    exact added extension
  · refine (statement_executes levels s valid).mono ?_
    rintro _ s' ⟨items, extension, _⟩
    exact added extension

/-- The bytes at the end of a method are the first ones in the end. -/
theorem methodEnd_isPrefix
    (head : Ensures (do scan; openProgram) start fun _ s => BetweenMethods s ∧
      empty.Continues s.code) (run : source start = .ok ((), final))
    (ended : methodEnd start k = some (n, c)) : c.bytes.toList <+: final.code.bytes.toList := by
  obtain ⟨program, s, reached, rfl⟩ := afterMethods_of_methodEnd ended
  exact (afterMethods_final head run reached).last.isPrefix

/-- Sources with the same lexemes up to the closing brace of a method have the same code there. -/
theorem methodEnd_of_take {spacing : Nat} {limits : Limits} {text text' : List Char}
    (ended : methodEnd (.start (.spaced spacing) limits text) k = some (n, c))
    (same : ((Token.all text').map (·.lexeme)).take n = ((Token.all text).map (·.lexeme)).take n) :
    methodEnd (.start (.spaced spacing) limits text') k = some (n, c) := by
  have valid (text : List Char) : (Compiler.start (.spaced spacing) limits text).Valid :=
    Compiler.start_valid limits text fun _ => Nat.le_refl _
  refine methodEnd_again (valid text).tokens ?_ ended (u := .ofSource text') (valid text').tokens rfl
    rfl ?_ (.spaced spacing)
  · simp [Compiler.start, TokenStream.ofSource, Token.before, Token.kind, Lexeme.kind]
  · simpa [Compiler.start, TokenStream.ofSource, TokenStream.upcoming, Token.all,
      Function.comp_def] using same

/-- Two methods, the first of them with a loop that is left. -/
def twoMethods : List Char :=
  "program P \x7b void main() \x7b while (1 < 2) break; \x7d void f() \x7b \x7d \x7d".toList

/-- The same first method, and then one that is not finished. -/
def unfinishedMethod : List Char :=
  "program P \x7bvoid main()\n\x7bwhile (1<2) break;\x7d // first\nint g(int x) \x7b x = ;".toList

end Compile

end MicroJava

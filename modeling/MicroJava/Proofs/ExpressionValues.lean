import MicroJava.Proofs.ShortCircuit
import MicroJava.Proofs.Simulation.Memory
import MicroJava.Proofs.Verification.Program

/-! # The code of an expression computes its value

In the body of a method every variable in scope and every field can be addressed. So the code that an
expression is compiled to, with the code that loads the operand it returns, pushes the value that the
expression has in the memory which the machine holds, or meets the fault of its evaluation.
-/

namespace MicroJava

open SymbolTable Syntax Compile

variable {t : SymbolTable}

/-- A variable has one of the slots that are counted for its scope. -/
theorem Scope.Orderly.slot_lt {s : Scope} {level : Nat} {id : EntityId}
    (orderly : s.Orderly t level) (member : id ∈ s.entries) (isVar : (t.entity id).kind = .var) :
    ∃ slot : Nat, (t.entity id).adr = slot ∧ slot < s.varCount ∧ (t.entity id).level = level := by
  obtain ⟨slot, found, adr, sameLevel⟩ := orderly.exists_slot member isVar
  obtain ⟨inside, _⟩ := List.getElem?_eq_some_iff.mp found
  rw [orderly.count]
  exact ⟨slot, adr, inside, sameLevel⟩

/-- The table somewhere in the body of a method. Up to there the program has no problems: neither its
global declarations nor the methods before nor the head of the method itself. -/
inductive Syntax.Program.InBody (limits : Limits) (p : Program) (t : SymbolTable) : Prop where
  | mk {globals before segments t₁ m base t₂}
      (fresh : initial.Fresh p.name)
      (decls : Decl.DeclareAll limits p.start p.decls globals)
      (capacity : globals.varCount ≤ limits.globals)
      (method : before ++ [m] <+: p.methods)
      (earlier : Method.CompileAll limits globals 0 before segments t₁)
      (opens : m.Opens t₁ base t₂)
      (localCapacity : t₂.varCount ≤ limits.locals)
      (widens : t₂.Widens t)

/-- Instructions can name all that an expression in the body of a method can read. -/
theorem Syntax.Program.InBody.addressable {limits : Limits} {p : Program}
    (inBody : p.InBody limits.clamped t) : t.Addressable := by
  obtain @⟨globals, before, segments, t1, m, base, t2, fresh, decls, capacity, _, earlier, opens,
    localCapacity, widens⟩ := inBody
  obtain ⟨global, continues⟩ := earlier.global (Program.global fresh decls)
  obtain ⟨outer, above, noVars⟩ := global.scopes
  obtain ⟨s, scopes, _⟩ := above.current
  obtain ⟨_, inner, scopes2, _⟩ := opens.over above scopes
  have orderly := (opens.callees global.orderly global.wellTyped.based).1
  have typed : t.WellTyped limits.clamped.fields :=
    widens.preserves (fun _ elem typed => typed.array elem) (opens.wellTyped global.wellTyped)
  have inInner := orderly inner [s.insert t1.next .method, outer] (scopes2 ▸ List.suffix_rfl)
  have inProgram := orderly (s.insert t1.next .method) [outer] (scopes2 ▸ List.suffix_cons _ _)
  have innerCount : inner.varCount ≤ 0x7f := by
    have : t2.varCount = inner.varCount := by simp [SymbolTable.varCount, scopes2]
    have : limits.clamped.locals ≤ 0x7f := Nat.min_le_right ..
    omega
  have globalCount : (s.insert t1.next .method).varCount ≤ 0x7fff := by
    have same : t1.varCount = (s.insert t1.next .method).varCount := by
      simp [SymbolTable.varCount, scopes, Scope.insert]
    have : limits.clamped.globals ≤ 0x7fff := Nat.min_le_right ..
    have := continues.varCount
    omega
  -- A variable in scope is one of the method or one of the program.
  have slot {name : String} {id : EntityId} (found : t.lookup? name = some id)
      (isVar : (t.entity id).kind = .var) : ∃ slot : Nat, (t.entity id).adr = slot ∧
        ((t.entity id).level ≠ 0 ∧ slot < 0x7f ∨ (t.entity id).level = 0 ∧ slot < 0x7fff) := by
    rw [widens.lookup] at found
    rw [widens.entity] at isVar ⊢
    obtain ⟨scope, open_, member⟩ := mem_of_lookup found
    rw [scopes2] at open_
    simp only [List.mem_cons, List.not_mem_nil, or_false] at open_
    rcases open_ with rfl | rfl | rfl
    · obtain ⟨slot, adr, inside, level⟩ := inInner.slot_lt member isVar
      exact ⟨slot, adr, .inl ⟨by simp [level], by omega⟩⟩
    · obtain ⟨slot, adr, inside, level⟩ := inProgram.slot_lt member isVar
      exact ⟨slot, adr, .inr ⟨by simp [level], by omega⟩⟩
    · have known : t1.contains id = true := global.orderly.inside (by simp [scopes]) member
      rw [opens.persists.entity id known] at isVar
      exact absurd isVar (noVars id member)
  constructor
  · intro name id found isVar isLocal
    obtain ⟨slot, adr, ⟨_, _⟩ | ⟨global, _⟩⟩ := slot found isVar
    · omega
    · exact absurd global isLocal
  · intro name id found isVar isGlobal
    obtain ⟨slot, adr, ⟨notGlobal, _⟩ | ⟨_, _⟩⟩ := slot found isVar
    · exact absurd isGlobal notGlobal
    · omega
  · intro a i id found
    obtain ⟨inside, _⟩ := List.getElem?_eq_some_iff.mp found
    have count := typed.fieldCount a
    have : limits.clamped.fields ≤ 0x7fff := Nat.min_le_right ..
    exact ⟨(typed.field a i id found).2, by omega⟩

/-- Whether the code between two addresses gives a value: then it is pushed and nothing else changes.
A fault leaves all that was on the stack where it was, and variables and objects too. -/
def Machine.Gives (code : List Instruction) (start finish : Nat) (m : Machine) :
    Except MachineFault Int32 → Prop
  | .ok value => ∃ n, (step code)^[n] (.running start m) = .running finish (m.push value)
  | .error fault => ∃ n above,
    (step code)^[n] (.running start m) = .faulted fault { m with stack := above ++ m.stack }

/-- Sequential items that were assembled give what they read. -/
theorem Syntax.Reads.gives {S : Situation} {items : List Item} {value : Except MachineFault Int32}
    (reads : Reads S items value) {c : CodeBuffer} (complete : c.Complete) {m : Machine}
    (holds : S.holds m) :
    Machine.Gives (c.assemble items).instructions c.pc (c.assemble items).pc m value := by
  obtain ⟨n, run⟩ := Machine.run_sequence (complete.assemble items).pairwise_addr
    (complete.items_at items) reads.sequential m
  have pushed := reads.runs m holds
  cases value with
  | ok v =>
    have done : Items.execute items m = .ok (m.push v) := pushed
    refine ⟨n, ?_⟩
    rw [run, done, CodeBuffer.pc_assemble]
    rfl
  | error fault =>
    obtain ⟨above, failed⟩ := pushed
    refine ⟨n, above, ?_⟩
    rw [run, failed]
    rfl

/-- Compiling an expression always succeeds, and so does loading the operand it returns. If no
problem was reported, what was read is an expression, and no other one. If it only reads, then the
code gives the value of the expression, whatever its type, on every machine that holds a memory. A
sign that became part of a constant counts like one that the machine changes. -/
theorem Compile.expression_gives (levels : Nat) {limits : Limits} {p : Program} {s : Compiler}
    (valid : s.Valid) (inBody : p.InBody limits.clamped s.table) :
    ∃ x s₁ y s₂, expression levels s = .ok (x, s₁) ∧
      loadValue x s₁ = .ok (y, s₂) ∧
      (s₂.Clean → ∃ e : Expr,
        (∀ e' : Expr, s.tokens.upcoming = e'.lexemes ++ s₁.tokens.upcoming ↔ e' = e) ∧
        (e.isReading s.table = true → ∀ μ : Memory,
          (∀ fault, e.evaluate s.table μ = .error fault → fault ∈ readingFaults) ∧
          ∀ m : Machine, m.Holds s.table μ →
            Machine.Gives s₂.code.instructions s.code.pc s₂.code.pc m (e.evaluate s.table μ))) := by
  obtain ⟨x, s₁, compiled, _, items, extended, _, accepted⟩ := expression_realizes levels s valid
  obtain ⟨y, s₂, run, _, loaded⟩ := loadValue_does extended.valid x
  refine ⟨x, s₁, y, s₂, compiled, run, fun clean => ?_⟩
  obtain ⟨clean₁, _⟩ := loaded.accepted clean
  obtain ⟨_, e, reads, compiles⟩ := accepted clean₁
  refine ⟨e, fun e' => ⟨fun reads' => ?_, fun same => same ▸ reads⟩, fun isReading μ => ?_⟩
  · have same : e'.lexemes ++ [] = e.lexemes ++ [] := by
      rw [List.append_cancel_right (reads'.symm.trans reads)]
    exact (e'.splits same (by simp [Ends]) (by simp [Ends])).1
  · obtain ⟨_, evaluated⟩ :=
      Expr.Compiles.evaluated μ levels compiles inBody.addressable isReading
    have code : s₂.code = s.code.assemble (items ++ x.loadItems) := by
      rw [loaded.code, extended.code, CodeBuffer.assemble_append]
    rw [code]
    exact ⟨evaluated.regular, fun m holds => evaluated.reads.gives valid.code holds⟩

/-! A table with a constant, an array of objects that have an array each, and a local variable. -/

def rowsMethod : Method := ⟨none, "main", none, [⟨⟨"int", false⟩, "i", []⟩], []⟩

def rowsProgram : Program :=
  ⟨"P", [.const ⟨"int", false⟩ "last" (.number 2),
    .classDecl "Row" [⟨⟨"int", false⟩, "sum", []⟩, ⟨⟨"int", true⟩, "cells", []⟩],
    .vars ⟨⟨"Row", true⟩, "rows", []⟩], [rowsMethod]⟩

def rowsConstant : SymbolTable :=
  (rowsProgram.start.enter .con "last" .int).modify rowsProgram.start.next fun e =>
    { e with value := 2 }

def rowsFields : SymbolTable :=
  let t := (rowsConstant.addClass.2.enter .type "Row" rowsConstant.addClass.1).openScope
  let (numbers, t) := (t.enter .var "sum" .int).addArray .int
  t.enter .var "cells" numbers

def rowsGlobals : SymbolTable :=
  let (rows, t) := (rowsFields.leave.setFields rowsConstant.addClass.1 rowsFields.declared).addArray
    rowsConstant.addClass.1
  t.enter .var "rows" rows

def rowsTable : SymbolTable :=
  ((rowsGlobals.enterMethod "main" .none 0).openScope.modify rowsGlobals.next fun e =>
    { e with locals := [] }).enter .var "i" .int

private theorem rows_inBody : rowsProgram.InBody Limits.supported.clamped rowsTable := by
  have int {t : SymbolTable} (known : t.lookup? "int" = some ⟨1⟩ ∧ (t.entity ⟨1⟩).kind = .type ∧
      (t.entity ⟨1⟩).type = .int) : TypeName.Resolves t ⟨"int", false⟩ .int t :=
    known.2.2 ▸ .plain known.1 known.2.1
  have fields : VarDecl.DeclareAll
      (rowsConstant.addClass.2.enter .type "Row" rowsConstant.addClass.1).openScope
      [⟨⟨"int", false⟩, "sum", []⟩, ⟨⟨"int", true⟩, "cells", []⟩] rowsFields :=
    .cons (int (by decide)) (.cons (by decide) .nil)
      (.cons (.array rfl rfl) (.cons (by decide) .nil) .nil)
  have decls : Decl.DeclareAll Limits.supported.clamped rowsProgram.start rowsProgram.decls
      rowsGlobals :=
    .cons (.const (int (by decide)) (by decide)) (.cons (.classDecl (by decide) fields (by decide))
      (.cons (.vars (.array rfl rfl) (.cons (by decide) .nil)) .nil))
  have opens : rowsMethod.Opens rowsGlobals 0 rowsTable :=
    .mk .void (by decide) .none (.cons (int (by decide)) (.cons (by decide) .nil) .nil)
  exact .mk (by decide) decls (by decide) List.prefix_rfl .nil opens (by decide) .refl

/-- The operators of this expression belong to different levels. -/
def rowsSource : List Char := "-rows[i].cells[last - 1] * 2 + rows[0].sum;".toList

def rowsExpr : Expr :=
  let index (e : Factor) : Selector := .index (.mk false (.mk e []) [])
  .mk true
    (.mk (.value (.mk "rows" [index (.value (.mk "i" [])), .field "cells",
      .index (.mk false (.mk (.value (.mk "last" [])) []) [(.minus, .mk (.number 1) [])])]))
      [(.times, .number 2)])
    [(.plus, .mk (.value (.mk "rows" [index (.number 0), .field "sum"])) [])]

/-- A machine with two rows, the first of which has the given reference to its cells. -/
def rowsMachine (cells : Int32) : Machine where
  stack := [99]
  locals := [0]
  frames := [0]
  globals := [1]
  heap := [[2, 3], [5, cells], [7, 0], [10, 20, 30]]

def rowsMemory (cells : Int32) : Memory where
  values id := if id = ⟨15⟩ then 1 else 0
  object? := (rowsMachine cells).object?

private theorem rows_holds (cells : Int32) :
    (rowsMachine cells).Holds rowsTable (rowsMemory cells) := by
  refine ⟨fun name id found isVar => ?_, rfl⟩
  have inScope : ∀ scope ∈ rowsTable.scopes, ∀ id ∈ scope.entries,
      (rowsTable.entity id).kind = .var → id = ⟨17⟩ ∨ id = ⟨15⟩ := by decide
  obtain ⟨scope, open_, member⟩ := mem_of_lookup found
  rcases inScope scope open_ id member isVar with rfl | rfl
  · rfl
  · rfl

theorem Compile.expression_gives_rows : ∃ s x s₁ y s₂,
    scan { Compiler.start .standard .supported rowsSource with table := rowsTable } =
      .ok ((), s) ∧
    expression 2 s = .ok (x, s₁) ∧ loadValue x s₁ = .ok (y, s₂) ∧ s₂.Clean ∧
    s.tokens.upcoming = rowsExpr.lexemes ++ s₁.tokens.upcoming ∧
    Machine.Gives s₂.code.instructions s.code.pc s₂.code.pc (rowsMachine 4) (.ok (-35)) ∧
    Machine.Gives s₂.code.instructions s.code.pc s₂.code.pc (rowsMachine 0)
      (.error .nullReference) := by
  have started := Compiler.start_valid .supported rowsSource fun _ =>
    Nat.le_refl Reporter.standard.spacing
  have ready : Compiler.Valid
      { Compiler.start .standard .supported rowsSource with table := rowsTable } :=
    ⟨⟨by decide, by decide, by decide, by decide, by decide, by decide, by decide⟩, started.tokens,
      started.reporter, by simp [Compiler.start], started.exits, started.code⟩
  obtain ⟨_, s, scanned, extended, table, _⟩ := scan_ensures ready
  have inBody : rowsProgram.InBody Limits.supported.clamped s.table := by
    rw [table]
    exact rows_inBody
  obtain ⟨x, s₁, y, s₂, compiled, loaded, accepted⟩ :=
    expression_gives 2 extended.valid inBody
  have computed : (do
      let first ← scan
        { Compiler.start .standard .supported rowsSource with table := rowsTable }
      let second ← expression 2 first.2
      let last ← loadValue second.1 second.2
      return (last.2.reporter.recorded, decide (first.2.tokens.upcoming =
        rowsExpr.lexemes ++ second.2.tokens.upcoming))) = .ok (#[], true) := by
    decide +kernel
  simp only [scanned, compiled, loaded, bind, Except.bind, Pure.pure, Except.pure, Except.ok.injEq,
    Prod.mk.injEq, decide_eq_true_eq] at computed
  obtain ⟨clean, reads⟩ := computed
  obtain ⟨e, unique, gives⟩ := accepted clean
  obtain rfl := (unique rowsExpr).mp reads
  rw [table] at gives
  have isReading : rowsExpr.isReading rowsTable = true := by decide +kernel
  have value : rowsExpr.evaluate rowsTable (rowsMemory 4) = .ok (-35) := by decide +kernel
  have fault : rowsExpr.evaluate rowsTable (rowsMemory 0) = .error .nullReference := by
    decide +kernel
  refine ⟨s, x, s₁, y, s₂, scanned, compiled, loaded, clean, reads, ?_, ?_⟩
  · rw [← value]
    exact (gives isReading _).2 _ (rows_holds 4)
  · rw [← fault]
    exact (gives isReading _).2 _ (rows_holds 0)

end MicroJava

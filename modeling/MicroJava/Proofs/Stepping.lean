import MicroJava.Proofs.ShortCircuit
import MicroJava.Proofs.Simulation.Step

/-! # Steps of variables

`x++` and `x--` have code of their own, which for a local variable is a single instruction. Where
the address of the variable is on the stack, that code and the code of `x += 1` or `x -= 1` lead the
machine to the same state or to the same fault, and take nothing but the address off the stack.
-/

namespace MicroJava

open Operand

namespace Compile

variable {s : Compiler}

/-- A number before a semicolon is an expression that needs no code. -/
theorem expression_number (levels : Nat) {value : Int32} (shallow : s.depth < maxNesting)
    {rest : List Lexeme} (faces : s.tokens.upcoming = .number value :: .mark .semicolon :: rest) :
    Ensures (expression (levels + 1)) s fun x s' => x = .number value ∧ s'.code = s.code := by
  obtain ⟨⟨prev, ⟨lexeme, pos⟩, scanned, steps⟩, reporter, table, code, limits, method, exits,
    depth⟩ := s
  cases scanned with
  | nil => simp [TokenStream.upcoming] at faces
  | cons next others =>
    obtain ⟨⟨second, pos'⟩, diagnostics⟩ := next
    simp only [TokenStream.upcoming, List.map_cons, List.cons.injEq] at faces
    obtain ⟨rfl, rfl, rfl⟩ := faces
    unfold expression deeper
    refine .get ?_
    rw [if_neg (Nat.not_le.mpr shallow)]
    cases others with
    | nil => exact ⟨_, _, rfl, rfl, rfl⟩
    | cons next others => exact ⟨_, _, rfl, rfl, rfl⟩

/-- The code of `x += 1` or `x -= 1`. -/
theorem designatorUse_update {x : Operand} (storable : x.isVariable = true) (up : Bool)
    (levels : Nat) (shallow : s.depth < maxNesting) {rest : List Lexeme}
    (faces : s.tokens.upcoming =
      .mark (if up then .plusAssign else .minusAssign) :: .number 1 :: .mark .semicolon :: rest) :
    Ensures (designatorUse (expression (levels + 1)) x) s fun _ s' =>
      s'.code = s.code.assemble (x.updateItems up) := by
  have kind : s.tokens.peek.kind = .mark (if up then .plusAssign else .minusAssign) :=
    congrArg Lexeme.kind (List.cons.inj faces).1
  have behind : s.tokens.advance.upcoming = .number 1 :: .mark .semicolon :: rest := by
    cases left : s.tokens.rest with
    | nil => simp [TokenStream.upcoming, left] at faces
    | cons next others =>
      simpa [TokenStream.upcoming, TokenStream.advance, left] using (List.cons.inj faces).2
  have noMethod : x.kind ≠ .method := by
    intro method
    simp [isVariable, method] at storable
  have compound : Ensures (compoundAssignment (expression (levels + 1)) x
      (updateOp up).opcode) s fun _ s' =>
        s'.code = s.code.assemble (x.updateItems up) := by
    unfold compoundAssignment
    refine .ofRun rfl (.ofRun rfl ?_)
    obtain ⟨_, run⟩ := reportIf_run (!x.isVariable) (.semantic .variableExpected) _
    refine .ofRun run (.ofRun rfl ?_)
    refine .bind (expression_number levels (by exact shallow) (by exact behind)) ?_
    rintro _ s1 ⟨rfl, same⟩
    refine .ofRun rfl ?_
    obtain ⟨_, run⟩ := reportIf_run (x.type != .int || false) (.semantic .operandNotInt) s1
    refine .ofRun run (.ofRun rfl (.ofRun rfl ⟨(), _, rfl, ?_⟩))
    simp only [same, keepAddress_eq, loadAndKeep_eq x _ noMethod,
      loadValue_eq, assign_eq, updateItems, CodeBuffer.assemble_append]
    cases up <;> rfl
  refine .lookahead ?_
  rw [kind]
  cases up with
  | true => exact compound
  | false => exact compound

/-- The code that steps a variable and the code of `x += 1` or `x -= 1` lead every machine that has
the address of the variable on its stack to the same state or to the same fault: the one that reading
the variable, adding or subtracting one and storing the result leads to. Without a fault nothing but
the address was taken off the stack. -/
theorem step_runs_as_update {x : Operand} (storable : x.isVariable = true)
    (slot : x.kind = .localVar → 0 ≤ x.adr ∧ x.adr ≤ 0x7f) (up : Bool) (levels : Nat)
    (complete : s.code.Complete) (shallow : s.depth < maxNesting) {rest : List Lexeme}
    (faces : s.tokens.upcoming =
      .mark (if up then .plusAssign else .minusAssign) :: .number 1 :: .mark .semicolon :: rest) :
    ∃ s', designatorUse (expression (levels + 1)) x s = .ok ((), s') ∧
      ∀ (m : Machine) (cells stack : List Int32), m.stack = cells ++ stack →
        cells.length = x.addressSize →
        (∃ n, (Machine.step (x.step up s.code).result.instructions)^[n] (.running s.code.pc m) =
          .ofRun (x.step up s.code).result.pc (Items.execute (x.updateItems up) m)) ∧
        (∃ n, (Machine.step s'.code.instructions)^[n] (.running s.code.pc m) =
          .ofRun s'.code.pc (Items.execute (x.updateItems up) m)) ∧
        ∀ m', Items.execute (x.updateItems up) m = .ok m' → m'.stack = stack := by
  obtain ⟨_, s', run, code⟩ := designatorUse_update storable up levels shallow faces
  refine ⟨s', run, fun m cells stack address size => ?_⟩
  have runs (items : List Item) (sequential : ∀ i ∈ items, i.isSequential = true) :
      ∃ n, (Machine.step (s.code.assemble items).instructions)^[n] (.running s.code.pc m) =
        .ofRun (s.code.assemble items).pc (Items.execute items m) := by
    rw [CodeBuffer.pc_assemble]
    exact Machine.run_sequence (complete.assemble items).pairwise_addr (complete.items_at items)
      sequential m
  have reachable : x.Reachable := ⟨storable, slot⟩
  have sequential := List.forall_mem_append.mp (reachable.sequential up)
  rw [Operand.step_eq, code]
  constructor
  · rw [← reachable.step up address size]
    exact runs (x.stepItems up) sequential.1
  · exact ⟨runs (x.updateItems up) sequential.2, fun m' done =>
      reachable.update_stack address size done⟩

/-- The element of an array that holds the greatest number becomes the least one. -/
theorem step_runs_as_update_overflow :
    let s : Compiler := { Compiler.start .standard .supported [] with
      tokens := (TokenStream.ofSource "+= 1;".toList).advance }
    let x : Operand := { kind := .element, type := .int }
    let m : Machine := { stack := [0, 1, 7], heap := [[Int32.maxValue]] }
    let m' : Machine := { stack := [7], heap := [[Int32.minValue]] }
    ∃ s' n k, designatorUse (expression 1) x s = .ok ((), s') ∧
      (Machine.step (x.step true s.code).result.instructions)^[n] (.running s.code.pc m) =
        .running (x.step true s.code).result.pc m' ∧
      (Machine.step s'.code.instructions)^[k] (.running s.code.pc m) =
        .running s'.code.pc m' := by
  intro s x m m'
  have faces : s.tokens.upcoming =
      [.mark .plusAssign, .number 1, .mark .semicolon, .eof] := by decide +kernel
  obtain ⟨s', run, agree⟩ := step_runs_as_update (show x.isVariable = true from rfl)
    (fun isLocal => nomatch isLocal) true 0 (show s.code.Complete from ⟨[], rfl⟩)
    (show s.depth < maxNesting by decide) faces
  obtain ⟨⟨n, stepped⟩, ⟨k, updated⟩, _⟩ := agree m [0, 1] [7] rfl rfl
  have outcome : Items.execute (x.updateItems true) m = .ok m' := by decide +kernel
  rw [outcome] at stepped updated
  exact ⟨s', n, k, run, stepped, updated⟩

end Compile

end MicroJava

import MicroJava.Proofs.Code.Decode
import MicroJava.Proofs.Run.Source
import MicroJava.Proofs.Translation.Methods

/-! # The code of methods

The code of every source text consists of complete instructions. If there was no problem, it is the
code of the methods one after the other: each is entered at its first instruction, its jumps stay
inside it, and its calls lead to where methods begin.
-/

namespace MicroJava

open Syntax Items CodeBuffer Item

variable {items : List Item}

namespace Instruction

/-- Whether an instruction is a jump, taken always or under a condition. -/
def isJump (i : Instruction) : Bool := i.op?.any fun op => op.isTransfer && op != .call

/-- Whether instructions are the code of a method that calls methods at some addresses only. -/
structure IsMethodCode (callable : Nat → Prop) (code : List Instruction) : Prop where
  enters : ∃ first rest, code = first :: rest ∧ first.op? = some .enter
  ends : ∃ front last, code = front ++ [last] ∧ (last.op? = some .ret ∨ last.op? = some .trap)
  jumps : ∀ i ∈ code, i.isJump = true → ∃ target ∈ code.tail, i.target? = some target.addr
  calls : ∀ i ∈ code, i.op? = some .call → ∃ adr, callable adr ∧ i.target? = some adr

end Instruction

/-! ## Instructions of items -/

theorem Item.isJump_instruction {i : Item} {adr : Nat} (jumps : (i.instruction adr).isJump = true) :
    ∃ when? target, i = .jump when? target := by
  cases i with
  | jump when? target => exact ⟨when?, target, rfl⟩
  | call target => simp [Instruction.isJump, opcode] at jumps
  | plain op operands proper => simp [Instruction.isJump, opcode, proper.2] at jumps

theorem Item.call_of_op {i : Item} {adr : Nat} (calls : (i.instruction adr).op? = some .call) :
    ∃ target, i = .call target := by
  rw [instruction_op?, Option.some.injEq] at calls
  cases i with
  | call target => exact ⟨target, rfl⟩
  | plain op operands proper =>
    have same : op = .call := calls
    subst same
    exact absurd proper.2 (by decide)
  | jump when? target =>
    cases when? with
    | none => cases calls
    | some comparison => cases comparison <;> cases calls

/-- An instruction begins at every boundary but the last. -/
theorem Items.Boundary.instruction {base adr : Nat} (boundary : Boundary base items adr)
    (before : adr ≠ base + size items) : ∃ i ∈ instructions base items, i.addr = adr := by
  obtain ⟨front, back, rfl, rfl⟩ := boundary
  cases back with
  | nil => simp at before
  | cons i back =>
    refine ⟨i.instruction (base + size front), ?_, rfl⟩
    simp [instructions_append, instructions]

private theorem size_finishItems_pos (type : TypeId) : 0 < size (finishItems type) := by
  unfold finishItems
  split <;> decide

theorem plain_finishItems (type : TypeId) : Plain (finishItems type) := by
  unfold finishItems
  split <;> simp

/-- The last instruction of a method leaves it or traps. -/
theorem finishItems_last (type : TypeId) (adr : Nat) :
    ∃ front last, instructions adr (finishItems type) = front ++ [last] ∧
      (last.op? = some .ret ∨ last.op? = some .trap) := by
  unfold finishItems
  split
  · exact ⟨[_], _, rfl, .inl (by simp [opcode])⟩
  · exact ⟨[], _, rfl, .inr (by simp [opcode])⟩

theorem Syntax.MethodOutline.isMethodCode {starts : Nat → Prop} {base : Nat}
    (outline : MethodOutline starts base items) :
    Instruction.IsMethodCode starts (instructions base items) := by
  obtain ⟨near, parameterCount, varCount, body, type, rfl, leads, calls⟩ := outline
  -- Only the statements of a method have jumps and calls.
  have inBody {i : Item} (member : i ∈ methodItems parameterCount varCount body type)
      (transfers : i.isPlain = false) : i ∈ body := by
    simp only [methodItems, List.cons_append, List.mem_cons, List.mem_append] at member
    rcases member with rfl | member | member
    · cases transfers
    · exact member
    · rw [plain_finishItems type i member] at transfers
      cases transfers
  refine ⟨⟨_, _, rfl, by simp [opcode]⟩, ?_, fun i member jumps => ?_, fun i member called => ?_⟩
  · obtain ⟨front, last, same, ends⟩ := finishItems_last type (base + size
      (.plain .enter [parameterCount, varCount] ⟨rfl, rfl⟩ :: body))
    rw [methodItems, instructions_append, same, ← List.append_assoc]
    exact ⟨_, last, rfl, ends⟩
  · obtain ⟨front, item, back, same, rfl⟩ := mem_instructions member
    obtain ⟨when?, target, rfl⟩ := isJump_instruction jumps
    have within := leads when? target (inBody (by simp [same]) rfl)
    cases target with
    | waiting label => cases within
    | address adr =>
      have boundary : Boundary (base + 3) (body ++ finishItems type) adr :=
        Boundary.append_right within _
      obtain ⟨_, _, split, bound⟩ := within
      have inside : adr ≠ base + 3 + size (body ++ finishItems type) := by
        have := size_finishItems_pos type
        simp only [split, size_append, bound]
        omega
      obtain ⟨found, isInstruction, rfl⟩ := boundary.instruction inside
      rw [same] at near
      exact ⟨found, isInstruction, instruction_target? _ _ rfl (isFar_of_farCount near)⟩
  · obtain ⟨front, item, back, same, rfl⟩ := mem_instructions member
    obtain ⟨target, rfl⟩ := call_of_op called
    obtain ⟨start, holds, rfl⟩ := calls target (inBody (by simp [same]) rfl)
    rw [same] at near
    exact ⟨start, holds, instruction_target? _ _ rfl (isFar_of_farCount near)⟩

/-! ## Segments -/

/-- The instructions of lists of items that are assembled one after the other. -/
def Items.segments : (adr : Nat) → List (List Item) → List (List Instruction)
  | _, [] => []
  | adr, items :: rest => instructions adr items :: segments (adr + size items) rest

namespace Items

theorem flatten_segments (adr : Nat) (all : List (List Item)) :
    (segments adr all).flatten = instructions adr all.flatten := by
  induction all generalizing adr with
  | nil => rfl
  | cons items rest ih => simp [segments, ih, instructions_append]

private theorem length_segments (adr : Nat) (all : List (List Item)) :
    (segments adr all).length = all.length := by
  induction all generalizing adr with
  | nil => rfl
  | cons items rest ih => simp [segments, ih]

theorem getElem?_segments (adr : Nat) (all : List (List Item)) (k : Nat) :
    (segments adr all)[k]? =
      all[k]?.map fun items => instructions (adr + size (all.take k).flatten) items := by
  induction all generalizing adr k with
  | nil => rfl
  | cons items rest ih =>
    cases k with
    | zero => simp [segments]
    | succ k => simp [segments, ih, Nat.add_assoc]

end Items

/-- Code that consists of items has known opcodes and all operand bytes. -/
theorem CodeBuffer.Complete.instructions {c : CodeBuffer} (complete : c.Complete) :
    ∀ i ∈ c.instructions, i.op?.isSome = true ∧ i.isComplete = true := by
  obtain ⟨items, bytes⟩ := complete
  rw [instructions_eq bytes]
  intro i member
  obtain ⟨_, item, _, _, rfl⟩ := mem_instructions member
  simp

/-- The methods of a program with the instructions that are their code. -/
structure Syntax.Program.HasCode (p : Program) (table : SymbolTable) (code : List (List Instruction)) :
    Prop where
  length : code.length = p.methods.length
  /-- The `k`-th segment is the code of the `k`-th method, which calls methods up to itself. -/
  segment : ∀ (k : Nat) (m : Method) (segment : List Instruction), p.methods[k]? = some m →
    code[k]? = some segment →
    (∃ id first, segment.head? = some first ∧ SymbolTable.Begins m.name first.addr id table) ∧
    Instruction.IsMethodCode (fun adr => ∃ j ≤ k, ∃ callee first, code[j]? = some callee ∧
      callee.head? = some first ∧ first.addr = adr) segment

theorem Syntax.MethodOutline.head {starts : Nat → Prop} {base : Nat}
    (outline : MethodOutline starts base items) :
    ∃ first, (instructions base items).head? = some first ∧ first.addr = base := by
  obtain ⟨_, _, _, _, _, rfl, _⟩ := outline
  exact ⟨_, rfl, rfl⟩

namespace Syntax.Program.Yields

variable {p : Program} {limits : Limits} {source : List Char} {globals final : SymbolTable}
  {segments : List (List Item)} {code : CodeBuffer}
  (yields : p.Yields limits source globals final segments code)

include yields

theorem flatten_segments : code.instructions = (Items.segments 0 segments).flatten := by
  rw [Items.flatten_segments, CodeBuffer.instructions_eq yields.bytes]

theorem hasCode :
    p.HasCode (final.leave.modify SymbolTable.initial.next fun e =>
      { e with locals := final.declared }) (Items.segments 0 segments) := by
  have based : globals.Based := yields.decls.preserves
    (fun _ _ _ declares based => based.trans declares.persists) p.start_based
  have placed : globals.Placed fun _ => False := yields.decls.preserves
    (fun _ _ _ declares placed => declares.placed placed) p.start_placed
  obtain ⟨_, length, all⟩ := yields.methods.outline based placed
  refine ⟨by rw [Items.length_segments, length], fun k m segment method isSegment => ?_⟩
  rw [getElem?_segments, Option.map_eq_some_iff] at isSegment
  obtain ⟨items, isItems, rfl⟩ := isSegment
  obtain ⟨⟨id, begins⟩, outline⟩ := all k m items method isItems
  obtain ⟨first, head, address⟩ := outline.head
  refine ⟨⟨id, first, head, ?_⟩, ?_⟩
  · rw [address]
    exact ((SymbolTable.robust_begins ..).scopes _ _ begins).modify fun _ => ⟨rfl, rfl, rfl⟩
  · have code := outline.isMethodCode
    refine ⟨code.enters, code.ends, code.jumps, fun i member called => ?_⟩
    obtain ⟨_, start, target⟩ := code.calls i member called
    obtain ⟨j, early, rfl⟩ := start.resolve_left fun impossible => impossible
    -- Every segment before the caller's is the code of a method, so it begins with an instruction.
    have inside : j < segments.length :=
      Nat.lt_of_le_of_lt early (List.getElem?_eq_some_iff.mp isItems).1
    obtain ⟨_, callee⟩ := all j p.methods[j] segments[j] (List.getElem?_eq_getElem (by omega))
      (List.getElem?_eq_getElem inside)
    obtain ⟨first, head, address⟩ := callee.head
    exact ⟨_, ⟨j, early, _, first, by simp [getElem?_segments, inside], head, address⟩, target⟩

end Syntax.Program.Yields

/-- Every source text compiles to complete instructions with known opcodes. If there is no problem,
they are the code of the methods of the program, one after the other. -/
theorem Compilation.run_hasCode (limits : Limits) (source : List Char) :
    ∃ s : Compiler, Compile.source (.start .standard limits source) = .ok ((), s) ∧
      Compilation.run limits source = .ok ⟨s.code, s.reporter.recorded.toList⟩ ∧
      (∀ i ∈ s.code.instructions, i.op?.isSome = true ∧ i.isComplete = true) ∧
      (s.reporter.recorded.toList = [] → ∃ (p : Program) (code : List (List Instruction)),
        p.IsTreeOf source ∧ s.code.instructions = code.flatten ∧ p.HasCode s.table code) := by
  obtain ⟨s, compiled, run, complete, accepted⟩ := Compilation.run_yields limits source
  refine ⟨s, compiled, run, complete.instructions, fun none => ?_⟩
  obtain ⟨p, globals, final, segments, yields, table⟩ := accepted none
  refine ⟨p, Items.segments 0 segments, yields.tree, ?_, ?_⟩
  · exact yields.flatten_segments
  · rw [table]
    exact yields.hasCode

/-- A program with a loop and a call. -/
def loopSource : List Char :=
  "program P \x7b int f(int n) \x7b while (n > 0) n--; return n; \x7d void main() \x7b f(3); \x7d \x7d".toList

theorem Compilation.run_hasCode_loop : ∃ s : Compiler,
    Compilation.run .supported loopSource = .ok ⟨s.code, []⟩ ∧
    ∃ (p : Program) (code : List (List Instruction)), p.IsTreeOf loopSource ∧
      s.code.instructions = code.flatten ∧ p.HasCode s.table code := by
  obtain ⟨s, _, run, _, accepted⟩ := Compilation.run_hasCode .supported loopSource
  have none : s.reporter.recorded.toList = [] := by
    have clean : (Compilation.run .supported loopSource).map (·.diagnostics) = .ok [] := by
      decide +kernel
    rw [run] at clean
    exact Except.ok.inj clean
  exact ⟨s, by rw [run, none], accepted none⟩

end MicroJava

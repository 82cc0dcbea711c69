import MicroJava.Proofs.Code.Decode
import MicroJava.Proofs.Machine.Basic

/-! # Running items

Where code has the instructions of items, the machine does what the items say: items that neither
jump nor return run one after the other, and a jump that is near enough leads to the address that it
names. No instruction takes output back.
-/

namespace MicroJava

open Items List

namespace Machine

/-! ## Output -/

/-- Whether an action only adds to the output. -/
def Adds (action : Action) : Prop := ∀ m m', action m = .ok m' → m.output <+: m'.output

private theorem adds_ok {f : Machine → Machine} (kept : ∀ m, m.output <+: (f m).output) :
    Adds fun m => .ok (f m) := by
  rintro m _ ⟨⟩
  exact kept m

private theorem adds_error (fault : MachineFault) : Adds fun _ => .error fault := by
  rintro m _ ⟨⟩

private theorem adds_pop {f : Int32 → Action} (adds : ∀ a, Adds (f a)) : Adds (pop f) := by
  intro m m' done
  unfold pop at done
  split at done
  · next a stack _ => exact adds a { m with stack } m' done
  · cases done

private theorem adds_require {α : Type} {fault : MachineFault} {result : Machine → Option α}
    {f : Machine → α → Except MachineFault Machine} (adds : ∀ a, Adds fun m => f m a) :
    Adds fun m => require fault (result m) (f m) := by
  intro m m' done
  simp only [require] at done
  split at done
  · exact adds _ m m' done
  · cases done

private theorem adds_setLocal (slot : Int) (value : Int32) : Adds (setLocal slot value) :=
  adds_require fun _ => adds_ok fun _ => prefix_rfl

private theorem adds_loadCell (reference : Int32) (index : Int) : Adds (loadCell reference index) :=
  adds_require fun _ => adds_require fun _ => adds_ok fun _ => prefix_rfl

private theorem adds_setCell (reference : Int32) (index : Int) (value : Int32) :
    Adds (setCell reference index value) :=
  adds_require fun _ => adds_require fun _ => adds_ok fun _ => prefix_rfl

private theorem adds_binary (f : Int32 → Int32 → Option Int32) : Adds (binary f) :=
  adds_pop fun _ => adds_pop fun _ => adds_require fun _ => adds_ok fun _ => prefix_rfl

private theorem adds_print (text : Int32 → List Char) :
    Adds (pop fun width => pop fun value m => .ok (m.print (text value) width)) :=
  adds_pop fun _ => adds_pop fun _ => adds_ok fun _ => prefix_append _ _

private theorem adds_enterFrame (parameterCount varCount : Nat) :
    Adds (enterFrame parameterCount varCount) := by
  intro m m' done
  unfold enterFrame at done
  split at done <;> cases done
  exact prefix_rfl

private theorem adds_exitFrame : Adds exitFrame := by
  intro m m' done
  unfold exitFrame at done
  split at done <;> cases done
  exact prefix_rfl

private theorem adds_perform (op : Opcode) (operands : List Int) : Adds (perform op operands) := by
  fun_cases perform op operands
  all_goals first
    | exact adds_ok fun _ => prefix_rfl
    | exact adds_error _
    | exact adds_require fun _ => adds_ok fun _ => prefix_rfl
    | exact adds_require fun _ => adds_setLocal _ _
    | exact adds_binary _
    | exact adds_print _
    | exact adds_enterFrame _ _
    | exact adds_exitFrame
    | apply adds_pop
      intro _
      first
        | exact adds_ok fun _ => prefix_rfl
        | exact adds_require fun _ => adds_ok fun _ => prefix_rfl
        | exact adds_loadCell _ _
        | exact adds_pop fun _ => adds_ok fun _ => prefix_rfl
        | exact adds_pop fun _ => adds_loadCell _ _
        | exact adds_pop fun _ => adds_setCell _ _ _
        | exact adds_pop fun _ => adds_pop fun _ => adds_setCell _ _ _

private theorem transfer_output (i : Instruction) (m : Machine) :
    m.output <+: (transfer i m).machine.output := by
  unfold transfer
  split <;> exact prefix_rfl

private theorem runInstruction_output (i : Instruction) (op : Opcode) (m : Machine) :
    m.output <+: (runInstruction i op m).machine.output := by
  unfold runInstruction
  split
  · exact transfer_output i m
  · exact transfer_output i { m with returns := (i.addr + i.length) :: m.returns }
  · split <;> exact prefix_rfl
  · split
    · split
      · next stack _ =>
        split
        · exact transfer_output i { m with stack }
        · exact prefix_rfl
      · exact prefix_rfl
    · cases done : m.perform op i.operands with
      | ok m' => exact adds_perform _ _ _ _ done
      | error fault => exact prefix_rfl

private theorem step_output (code : List Instruction) (s : State) :
    s.machine.output <+: (step code s).machine.output := by
  unfold step
  split
  · split
    · split
      · exact runInstruction_output _ _ _
      · exact prefix_rfl
    · exact prefix_rfl
  · exact prefix_rfl

theorem after_output (c : CodeBuffer) {n k : Nat} (later : n ≤ k) :
    (after c n).machine.output <+: (after c k).machine.output := by
  induction later with
  | refl => exact prefix_rfl
  | step _ ih =>
    refine ih.trans ?_
    rw [after_add _ 1]
    exact step_output _ _

/-! ## Sequences of items -/

variable {code : List Instruction} {adr : Nat} {m m' : Machine}

/-- The instruction at an address is fetched. -/
theorem step_at {i : Item} {items : List Item} (increasing : Increasing code)
    (located : At code adr (i :: items)) :
    step code (.running adr m) = runInstruction (i.instruction adr) i.opcode m := by
  simp [step, located.find? increasing]

end Machine

/-- Whether control goes on behind an item. -/
def Item.isSequential : Item → Bool
  | plain op _ _ => op != .ret
  | _ => false

/-- Runs an item that does not jump. -/
def Item.execute (i : Item) : Machine.Action := Machine.perform i.opcode (i.instruction 0).operands

/-- Runs items one after the other. With a fault comes the machine before it. -/
def Items.execute : List Item → Machine → Except (MachineFault × Machine) Machine
  | [], m => .ok m
  | i :: items, m =>
    match i.execute m with
    | .ok m' => execute items m'
    | .error fault => .error (fault, m)

namespace Items

@[simp] theorem execute_nil (m : Machine) : execute [] m = .ok m := rfl

theorem execute_singleton {i : Item} {m m' : Machine} (done : i.execute m = .ok m') :
    execute [i] m = .ok m' := by
  simp [execute, done]

theorem execute_append (front back : List Item) (m : Machine) :
    execute (front ++ back) m = (execute front m).bind (execute back) := by
  induction front generalizing m with
  | nil => rfl
  | cons i front ih =>
    cases done : i.execute m with
    | ok m' => simp [execute, done, ih]
    | error fault => simp [execute, done, Except.bind]

end Items

/-- The state of a machine that ran items with the next one at an address. -/
def Machine.State.ofRun (next : Nat) : Except (MachineFault × Machine) Machine → Machine.State
  | .ok m => .running next m
  | .error (fault, m) => .faulted fault m

/-- The operands of an instruction that names no address do not depend on where it is. -/
theorem Item.operands_instruction {i : Item} (sequential : i.isSequential = true) (adr : Nat) :
    (i.instruction adr).operands = (i.instruction 0).operands := by
  cases i with
  | plain op operands proper => rfl
  | jump when? target => cases sequential
  | call target => cases sequential

namespace Machine

variable {code : List Instruction} {adr : Nat} {m m' : Machine} {i : Item} {items : List Item}
  {target : Nat}

private theorem runInstruction_plain {i : Instruction} {op : Opcode}
    (noTransfer : op.isTransfer = false)
    (noReturn : op ≠ .ret) :
    runInstruction i op m = m.goOn (i.addr + i.length) (m.perform op i.operands) := by
  have noRelation : op.relation? = none := by
    cases op <;> first | rfl | simp [Opcode.isTransfer] at noTransfer
  unfold runInstruction
  split
  · simp [Opcode.isTransfer] at noTransfer
  · simp [Opcode.isTransfer] at noTransfer
  · exact absurd rfl noReturn
  · rw [noRelation]

theorem step_sequential (increasing : Increasing code)
    (located : At code adr (i :: items)) (sequential : i.isSequential = true) (m : Machine) :
    step code (.running adr m) = m.goOn (adr + i.size) (i.execute m) := by
  rw [step_at increasing located, Item.execute, ← Item.operands_instruction sequential adr]
  cases i with
  | plain op operands proper =>
    rw [Item.opcode, runInstruction_plain proper.2 (by simpa [Item.isSequential] using sequential)]
    simp
  | jump when? target => cases sequential
  | call target => cases sequential

/-- The machine runs sequential items from the first to the last one, or up to a fault. -/
theorem run_sequence (increasing : Increasing code) (located : At code adr items)
    (sequential : ∀ i ∈ items, i.isSequential = true) (m : Machine) :
    ∃ n, (step code)^[n] (.running adr m) =
      .ofRun (adr + size items) (execute items m) := by
  induction items generalizing adr m with
  | nil => exact ⟨0, rfl⟩
  | cons i items ih =>
    have first := step_sequential increasing located (sequential i mem_cons_self) m
    cases done : i.execute m with
    | ok m' =>
      obtain ⟨n, runs⟩ := ih located.tail
        (fun other member => sequential other (mem_cons_of_mem _ member)) m'
      refine ⟨n + 1, ?_⟩
      rw [Function.iterate_succ_apply, first, done, goOn, runs, size_cons, Nat.add_assoc,
        execute, done]
    | error fault =>
      refine ⟨1, ?_⟩
      rw [Function.iterate_one, first, done, execute, done]
      rfl

private theorem runInstruction_branch (i : Instruction) (op : Comparison) {a b : Int32}
    {stack : List Int32}
    (operands : m.stack = b :: a :: stack) :
    runInstruction i op.jump m =
      if op.holds a b then transfer i { m with stack }
      else .running (i.addr + i.length) { m with stack } := by
  obtain ⟨_, locals, frames, returns, globals, heap, output⟩ := m
  subst operands
  cases op <;> rfl

theorem transfer_item (names : i.target? = some (target : Int)) (near : i.isFar adr = false)
    (m : Machine) : transfer (i.instruction adr) m = .running target m := by
  rw [transfer, i.instruction_target? adr names near]

/-- A jump that is near enough leads to its address. -/
theorem step_jump (increasing : Increasing code)
    (located : At code adr (.jump none (.address target) :: items))
    (near : (Item.jump none (.address target)).isFar adr = false) (m : Machine) :
    step code (.running adr m) = .running target m := by
  rw [step_at increasing located]
  exact transfer_item rfl near m

/-- A conditional jump that is near enough leads to its address if the relation holds between the
last two operands. -/
theorem step_branch {op : Comparison} {a b : Int32} {stack : List Int32}
    (increasing : Increasing code)
    (located : At code adr (.jump (some op) (.address target) :: items))
    (near : (Item.jump (some op) (.address target)).isFar adr = false) (m : Machine)
    (operands : m.stack = b :: a :: stack) :
    step code (.running adr m) =
      .running (if op.holds a b then target else adr + 3) { m with stack } := by
  rw [step_at increasing located]
  refine (runInstruction_branch _ op operands).trans ?_
  rw [transfer_item rfl near, Item.instruction_addr, Item.instruction_length, Item.size_jump]
  split <;> rfl

end Machine

end MicroJava

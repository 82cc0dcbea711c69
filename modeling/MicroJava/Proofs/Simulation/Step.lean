import Mathlib.Data.List.Basic
import MicroJava.Proofs.Simulation.Expression

/-! # Reading, storing and stepping variables

Where the address of a variable is on the stack, reading the variable pushes its value and storing a
value takes the address off. So the items that step a variable, which for a local variable are a
single instruction, do the same as those that read it, add or subtract one and store the result.
-/

namespace MicroJava

open Items Machine

namespace Machine

variable {m m' : Machine} {i : Item} {fault : MachineFault}

/-- Whether an action takes a number of operands off the stack and adds none. -/
def Drops (count : Nat) (action : Action) : Prop :=
  ∀ m m', action m = .ok m' → m'.stack = m.stack.drop count

private theorem drops_pop {count : Nat} {f : Int32 → Action} (drops : ∀ a, Drops count (f a)) :
    Drops (count + 1) (pop f) := by
  intro m m' done
  unfold pop at done
  split at done
  · next a stack same => rw [drops a _ m' done, same, List.drop_succ_cons]
  · cases done

private theorem drops_require {α : Type} {result : Machine → Option α}
    {f : Machine → α → Except MachineFault Machine} (drops : ∀ a, Drops 0 fun m => f m a) :
    Drops 0 fun m => require fault (result m) (f m) := by
  intro m m' done
  simp only [require] at done
  split at done
  · exact drops _ m m' done
  · cases done

private theorem drops_setCell (reference : Int32) (index : Int) (value : Int32) :
    Drops 0 (setCell reference index value) := by
  refine drops_require fun _ => drops_require fun _ => ?_
  rintro m _ ⟨⟩
  rfl

private theorem setLocal_isOk {slot : Int} {old : Int32} (found : cell? m.visible slot = some old)
    (value : Int32) : ∃ m', setLocal slot value m = .ok m' := by
  have inside : ¬ (slot < 0 ∨ m.visible.length ≤ slot.toNat) := by
    unfold cell? at found
    split at found
    · cases found
    · have := (List.getElem?_eq_some_iff.mp found).1
      omega
  exact ⟨_, by rw [setLocal, setCell?, if_neg inside]; rfl⟩

/-- Whether a run ends with a value pushed to a machine, or with a fault. -/
def PushesOrFaults (m : Machine) (outcome : Except (MachineFault × Machine) Machine) : Prop :=
  (∃ value, outcome = .ok (m.push value)) ∨ ∃ fault, outcome = .error fault

private theorem pushes_require (result : Option Int32)
    (runs : i.execute m' = require fault result fun value => .ok (m.push value)) :
    m.PushesOrFaults (execute [i] m') := by
  cases result with
  | some value => exact .inl ⟨value, execute_singleton runs⟩
  | none => exact .inr ⟨(fault, m'), by rw [execute, runs]; rfl⟩

private theorem pushes_loadCell {reference : Int32} {index : Int}
    (runs : i.execute m' = loadCell reference index m) : m.PushesOrFaults (execute [i] m') := by
  unfold loadCell at runs
  cases found : m.object? reference with
  | some cells => exact pushes_require (cell? cells index) (by rw [runs, found]; rfl)
  | none => exact .inr ⟨(.nullReference, m'), by rw [execute, runs, found]; rfl⟩

end Machine

/-- An item works on its operands as far as their widths hold them. -/
theorem Item.execute_plain {op : Opcode} {operands : List Int}
    (proper : operands.length = op.widths.length ∧ op.isTransfer = false) :
    (plain op operands proper).execute = perform op
      ((op.widths.zip operands).map fun (width, x) => Int.bmod x (Nat.pow 256 width.bytes)) := by
  rw [execute, instruction_operands]
  rfl

namespace Operand

/-- The number of cells on the stack that say where an operand is. -/
def addressSize (x : Operand) : Nat :=
  match x.kind with
  | .field => 1
  | .element => 2
  | _ => 0

/-- Whether a variable is where its instructions reach it. -/
structure Reachable (x : Operand) : Prop where
  storable : x.isVariable = true
  slot : x.kind = .localVar → 0 ≤ x.adr ∧ x.adr ≤ 0x7f

/-- The items that change the value of a step. -/
def changeItems (up : Bool) : List Item :=
  [.const (if up then 1 else -1), Syntax.AddOp.plus.item]

/-- The operator that adds one to a variable or subtracts one from it. -/
def updateOp (up : Bool) : Syntax.AddOp := if up then .plus else .minus

/-- The items of `x += 1` or `x -= 1`. -/
def updateItems (x : Operand) (up : Bool) : List Item :=
  x.keepItems ++ x.loadItems ++ [.const 1, (updateOp up).item] ++ x.storeItems

/-- Adding one or minus one, and adding or subtracting one, change a value in the same way. -/
theorem execute_change (up : Bool) (value : Int32) (m : Machine) :
    execute (changeItems up) (m.push value) =
        .ok (m.push (value + if up then 1 else -1)) ∧
      execute [.const 1, (updateOp up).item] (m.push value) =
        .ok (m.push (value + if up then 1 else -1)) := by
  cases up with
  | true => exact ⟨rfl, rfl⟩
  | false =>
    exact ⟨rfl, congrArg (fun v => Except.ok (m.push v)) (Int32.sub_eq_add_neg value 1)⟩

namespace Reachable

variable {x : Operand} {m m' : Machine} {cells stack : List Int32} {value : Int32}

section

variable (reachable : x.Reachable)

include reachable

private theorem cases_kind :
    x.kind = .localVar ∧ (0 ≤ x.adr ∧ x.adr ≤ 0x7f) ∨ x.kind = .staticVar ∨ x.kind = .field ∨
      x.kind = .element := by
  obtain ⟨storable, slot⟩ := reachable
  unfold isVariable at storable
  cases kind : x.kind <;> simp_all

theorem sequential (up : Bool) :
    ∀ i ∈ x.stepItems up ++ x.updateItems up, i.isSequential = true := by
  have store : (Item.storeElement x.type).isSequential = true := by
    unfold Item.storeElement
    split <;> rfl
  unfold stepItems updateItems keepItems loadItems storeItems
  rcases reachable.cases_kind with ⟨kind, _⟩ | kind | kind | kind <;> cases up <;>
    simp [kind, store, updateOp, Syntax.AddOp.item, Syntax.AddOp.opcode]

/-- Reading a variable leaves its address on the stack. -/
theorem read (address : m.stack = cells ++ stack) (size : cells.length = x.addressSize) :
    m.PushesOrFaults (execute (x.keepItems ++ x.loadItems) m) := by
  obtain ⟨_, locals, frames, returns, globals, heap, output⟩ := m
  obtain rfl := address
  unfold addressSize at size
  unfold keepItems loadItems
  rcases reachable.cases_kind with ⟨kind, low, high⟩ | kind | kind | kind <;> simp only [kind] at size ⊢
  · exact pushes_require _ (congrFun (Item.execute_load low high) _)
  · exact pushes_require _ (congrFun (Item.execute_plain _) _)
  · obtain ⟨reference, rfl⟩ := List.length_eq_one_iff.mp size
    exact pushes_loadCell (congrFun (Item.execute_plain _) _)
  · obtain ⟨index, array, rfl⟩ := List.length_eq_two.mp size
    exact pushes_loadCell (congrFun (Item.execute_loadElement _) _)

/-- Storing a value takes it and the address off the stack. -/
theorem store (done : execute x.storeItems m = .ok m') :
    m'.stack = m.stack.drop (x.addressSize + 1) := by
  have last {i : Item} (drops : Drops (x.addressSize + 1) i.execute)
      (only : x.storeItems = [i]) : m'.stack = m.stack.drop (x.addressSize + 1) := by
    apply drops
    rw [only, execute] at done
    split at done <;> simp_all
  unfold addressSize at *
  unfold storeItems at last
  rcases reachable.cases_kind with ⟨kind, low, high⟩ | kind | kind | kind <;> simp only [kind] at last ⊢
  · refine last ?_ rfl
    rw [Item.execute_store low high]
    refine drops_pop fun _ => drops_require fun _ => ?_
    rintro m _ ⟨⟩
    rfl
  · refine last ?_ rfl
    rw [Item.execute_plain]
    refine drops_pop fun _ => drops_require fun _ => ?_
    rintro m _ ⟨⟩
    rfl
  · refine last ?_ rfl
    rw [Item.execute_plain]
    exact drops_pop fun _ => drops_pop fun _ => drops_setCell _ _ _
  · unfold Item.storeElement at last
    split at last
    all_goals
      refine last ?_ rfl
      rw [Item.execute_plain]
      exact drops_pop fun _ => drops_pop fun _ => drops_pop fun _ =>
        drops_setCell _ _ _

end

/-- After a variable was read, an update stores the changed value. -/
theorem execute_update (read : execute (x.keepItems ++ x.loadItems) m = .ok (m.push value))
    (up : Bool) :
    execute (x.updateItems up) m =
      execute x.storeItems (m.push (value + if up then 1 else -1)) := by
  rw [updateItems, execute_append, execute_append, read]
  exact congrArg (Except.bind · _) (execute_change up value m).2

/-- A step of a local variable is an update of it. -/
theorem step_local (kind : x.kind = .localVar) (slot : 0 ≤ x.adr ∧ x.adr ≤ 0x7f) (up : Bool)
    (m : Machine) : execute (x.stepItems up) m = execute (x.updateItems up) m := by
  have reads : x.keepItems ++ x.loadItems = [.load x.adr] := by simp [keepItems, loadItems, kind]
  have load := congrFun (Item.execute_load slot.1 slot.2) m
  have inc := congrFun (Item.execute_inc slot.1 slot.2 up) m
  rw [loadLocal] at load
  rw [addLocal] at inc
  rw [show x.stepItems up = [_] by rw [stepItems, kind], execute, inc]
  cases found : cell? m.visible x.adr with
  | none =>
    rw [updateItems, reads, List.append_assoc, execute_append, execute, load, found]
    rfl
  | some value =>
    rw [found] at load
    have read : execute (x.keepItems ++ x.loadItems) m = .ok (m.push value) := by
      rw [reads, execute_singleton load]
    obtain ⟨m', done⟩ := setLocal_isOk found (value + if up then 1 else -1)
    have stored : execute x.storeItems (m.push (value + if up then 1 else -1)) = .ok m' := by
      rw [show x.storeItems = [_] by rw [storeItems, kind]]
      apply execute_singleton
      rw [Item.execute_store slot.1 slot.2]
      exact done
    rw [execute_update read, stored]
    have amount : Int32.ofInt (if up then 1 else -1) = if up then 1 else -1 := by
      cases up <;> rfl
    simp only [require, amount, done, execute_nil]

/-- A step of a variable is an update of it. -/
theorem step (reachable : x.Reachable) (up : Bool) (address : m.stack = cells ++ stack)
    (size : cells.length = x.addressSize) :
    execute (x.stepItems up) m = execute (x.updateItems up) m := by
  by_cases isLocal : x.kind = .localVar
  · exact step_local isLocal (reachable.slot isLocal) up m
  · have items : x.stepItems up = x.keepItems ++ x.loadItems ++ changeItems up ++ x.storeItems := by
      rcases reachable.cases_kind with ⟨kind, _⟩ | kind | kind | kind
      · exact absurd kind isLocal
      all_goals
        simp only [stepItems, kind]
        cases up <;> rfl
    rcases reachable.read address size with ⟨value, read⟩ | ⟨fault, read⟩
    · rw [execute_update read, items, execute_append, execute_append, read]
      exact congrArg (Except.bind · _) (execute_change up value m).1
    · rw [items, updateItems]
      simp only [execute_append _ x.storeItems,
        execute_append (x.keepItems ++ x.loadItems), read, Except.bind]

/-- An update of a variable takes its address off the stack. -/
theorem update_stack (reachable : x.Reachable) {up : Bool} (address : m.stack = cells ++ stack)
    (size : cells.length = x.addressSize) (done : execute (x.updateItems up) m = .ok m') :
    m'.stack = stack := by
  rcases reachable.read address size with ⟨value, read⟩ | ⟨fault, read⟩
  · rw [execute_update read] at done
    rw [reachable.store done, ← size]
    simp [push, address]
  · rw [updateItems, List.append_assoc, execute_append, read] at done
    cases done

end Reachable

end Operand

end MicroJava

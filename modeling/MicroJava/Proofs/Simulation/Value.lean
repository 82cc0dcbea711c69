import MicroJava.Proofs.Machine.Items
import MicroJava.Proofs.Syntax.Memory
import MicroJava.Proofs.Translation.Layout

/-! # Items that push a value

The items of an expression that only reads, followed by those that load its operand, push a value
and change nothing else, or meet a fault. This holds for all machines in some situation, which may
say where they have the variables; pushing a value does not change the situation.
-/

namespace MicroJava

open Items Operand Machine List

/-! ## Single items -/

namespace Item

variable {op : Opcode} {operands : List Int} {m : Machine} {slot : Int}

theorem execute_of_fits {proper : operands.length = op.widths.length ∧ op.isTransfer = false}
    (fit : ∀ pair ∈ op.widths.zip operands, pair.1.Fits pair.2) :
    (plain op operands proper).execute = perform op operands := by
  rw [execute, instruction_operands_of_fits 0 (plain op operands proper) fit]
  rfl

theorem execute_const (value : Int32) (m : Machine) :
    (const value.toInt).execute m = .ok (m.push value) := by
  have back := Int32.ofInt_toInt value
  have low := Int32.le_toInt value
  have high := Int32.toInt_lt value
  revert back low high
  generalize value.toInt = number
  rintro rfl low high
  fun_cases const number with
  | case8 =>
    rw [execute_of_fits (by simpa [Opcode.widths, Width.Fits, Width.bytes] using by omega)]
    rfl
  | _ => rfl

section

variable (low : 0 ≤ slot)

include low

theorem execute_load (high : slot ≤ 0x7f) : (load slot).execute = loadLocal slot := by
  fun_cases load slot with
  | case5 =>
    rw [execute_of_fits (by simpa [Opcode.widths, Width.Fits, Width.bytes] using by omega)]
    rfl
  | _ => rfl

theorem execute_store (high : slot ≤ 0x7f) : (store slot).execute = pop (setLocal slot) := by
  fun_cases store slot with
  | case5 =>
    rw [execute_of_fits (by simpa [Opcode.widths, Width.Fits, Width.bytes] using by omega)]
    rfl
  | _ => rfl

theorem execute_getStatic (high : slot ≤ 0x7fff) :
    (plain .getStatic [slot] ⟨rfl, rfl⟩).execute = loadGlobal slot := by
  rw [execute_of_fits (by simpa [Opcode.widths, Width.Fits, Width.bytes] using by omega)]
  rfl

theorem execute_putStatic (high : slot ≤ 0x7fff) :
    (plain .putStatic [slot] ⟨rfl, rfl⟩).execute = pop (setGlobal slot) := by
  rw [execute_of_fits (by simpa [Opcode.widths, Width.Fits, Width.bytes] using by omega)]
  rfl

theorem execute_inc (high : slot ≤ 0x7f) (up : Bool) :
    (plain .inc [slot, if up then 1 else -1] ⟨rfl, rfl⟩).execute =
      addLocal slot (if up then 1 else -1) := by
  have fit : ∀ pair ∈ Opcode.inc.widths.zip [slot, if up then 1 else -1], pair.1.Fits pair.2 := by
    cases up <;> simp [Opcode.widths, Width.Fits, Width.bytes] <;> omega
  rw [execute_of_fits fit]
  rfl

end

@[simp] theorem isSequential_plain
    (proper : operands.length = op.widths.length ∧ op.isTransfer = false) :
    (plain op operands proper).isSequential = (op != .ret) := rfl

@[simp] theorem isSequential_const (value : Int) : (const value).isSequential = true := by
  fun_cases const value <;> rfl

@[simp] theorem isSequential_load (slot : Int) : (load slot).isSequential = true := by
  fun_cases load slot <;> rfl

@[simp] theorem isSequential_store (slot : Int) : (store slot).isSequential = true := by
  fun_cases store slot <;> rfl

theorem execute_loadElement (elem : TypeId) :
    (loadElement elem).execute =
      pop fun index => pop fun array => loadCell array index.toInt := by
  unfold loadElement
  split <;> rfl

@[simp] theorem isSequential_loadElement (elem : TypeId) :
    (loadElement elem).isSequential = true := by
  unfold loadElement
  split <;> rfl

theorem execute_getField {index : Int} (low : 0 ≤ index) (high : index ≤ 0x7fff) :
    (plain .getField [index] ⟨rfl, rfl⟩).execute =
      pop fun object => loadCell object index := by
  rw [execute_of_fits (by simpa [Opcode.widths, Width.Fits, Width.bytes] using by omega)]
  rfl

end Item

namespace Machine

variable {m : Machine} {i : Item}

/-- What a run of items ends with that push a value: the value on the stack, or a fault with nothing
but more operands on the stack. -/
def Pushed (m : Machine) :
    Except MachineFault Int32 → Except (MachineFault × Machine) Machine → Prop
  | .ok value, result => result = .ok (m.push value)
  | .error fault, result => ∃ above, result = .error (fault, { m with stack := above ++ m.stack })

/-- An item that replaces some operands by a value. -/
theorem pushed_singleton (above : List Int32) {value : Except MachineFault Int32}
    (runs : i.execute { m with stack := above ++ m.stack } = value.map m.push) :
    m.Pushed value (execute [i] { m with stack := above ++ m.stack }) := by
  cases value with
  | ok v => exact execute_singleton runs
  | error fault =>
    refine ⟨above, ?_⟩
    rw [execute, runs]
    rfl

end Machine

namespace Syntax

/-- A condition on machines that pushing a value does not change. -/
structure Situation where
  holds : Machine → Prop
  push : ∀ {m}, holds m → ∀ value, holds (m.push value)

variable {S : Situation} {f : Int32 → Except MachineFault Int32}

/-! ## Items that read -/

/-- Whether items push a value, or meet a fault, wherever a machine is in a situation. -/
structure Reads (S : Situation) (items : List Item) (value : Except MachineFault Int32) : Prop where
  sequential : ∀ i ∈ items, i.isSequential = true
  runs : ∀ m : Machine, S.holds m → m.Pushed value (Items.execute items m)

namespace Reads

variable {items front back : List Item} {i : Item} {m : Machine}
  {value left right : Except MachineFault Int32}

/-- A single item that pushes a value. -/
theorem single {v : Int32} (sequential : i.isSequential = true)
    (runs : ∀ m : Machine, S.holds m → i.execute m = .ok (m.push v)) : Reads S [i] (.ok v) where
  sequential := by simpa using sequential
  runs m holds := execute_singleton (runs m holds)

/-- What follows a value that was pushed runs with it, unless there was a fault. -/
theorem andThen (reads : Reads S items value) (holds : S.holds m) (rest : List Item) :
    (∃ v, value = .ok v ∧ execute (items ++ rest) m = execute rest (m.push v)) ∨
    (∃ fault above, value = .error fault ∧ execute (items ++ rest) m =
      .error (fault, { m with stack := above ++ m.stack })) := by
  have first := reads.runs m holds
  rw [execute_append]
  cases value with
  | ok v =>
    have pushed : execute items m = .ok (m.push v) := first
    exact .inl ⟨v, rfl, by rw [pushed]; rfl⟩
  | error fault =>
    obtain ⟨above, failed⟩ := first
    exact .inr ⟨fault, above, rfl, by rw [failed]; rfl⟩

/-- A value that an item replaces by another one. -/
theorem unary (reads : Reads S items value) (sequential : i.isSequential = true)
    (runs : ∀ m : Machine, S.holds m → ∀ a, i.execute (m.push a) = (f a).map m.push) :
    Reads S (items ++ [i]) (value >>= f) where
  sequential := by
    simp only [mem_append, mem_singleton]
    rintro other (member | rfl)
    · exact reads.sequential other member
    · exact sequential
  runs m holds := by
    rcases reads.andThen holds [i] with ⟨a, rfl, pushed⟩ | ⟨fault, above, rfl, failed⟩
    · rw [pushed]
      exact pushed_singleton [a] (runs m holds a)
    · exact ⟨above, failed⟩

/-- Two values that an item replaces by a result. -/
theorem binary {f : Int32 → Int32 → Except MachineFault Int32} (first : Reads S front left)
    (second : Reads S back right) (sequential : i.isSequential = true)
    (runs : ∀ m : Machine, S.holds m → ∀ a b,
      i.execute ((m.push a).push b) = (f a b).map m.push) :
    Reads S (front ++ back ++ [i]) (left >>= fun a => right >>= fun b => f a b) where
  sequential := by
    simp only [mem_append, mem_singleton]
    rintro other ((member | member) | rfl)
    · exact first.sequential other member
    · exact second.sequential other member
    · exact sequential
  runs m holds := by
    rw [append_assoc]
    rcases first.andThen holds (back ++ [i]) with ⟨a, rfl, pushed⟩ | ⟨fault, above, rfl, failed⟩
    · rw [pushed]
      rcases second.andThen (S.push holds a) [i] with ⟨b, rfl, pushed⟩ | ⟨fault, above, rfl, failed⟩
      · rw [pushed]
        exact pushed_singleton [b, a] (runs m holds a b)
      · -- The first value is still on the stack.
        exact ⟨above ++ [a], by simpa [push] using failed⟩
    · exact ⟨above, failed⟩

/-- Two values to which an operator is applied. -/
theorem operator {f : Int32 → Int32 → Option Int32} (first : Reads S front left)
    (second : Reads S back right) (sequential : i.isSequential = true)
    (runs : i.execute = Machine.binary f) :
    Reads S (front ++ back ++ [i]) (left >>= fun a => right >>= fun b => ofQuotient (f a b)) := by
  refine first.binary second sequential fun m _ a b => ?_
  rw [runs]
  cases result : f a b with
  | none => simp [Machine.binary, pop, Machine.push, require, result, ofQuotient, Except.map]
  | some v => simp [Machine.binary, pop, Machine.push, require, result, ofQuotient, Except.map]

end Reads

/-! ## Operands -/

variable {t t' : SymbolTable} {items front : List Item} {x y : Operand}
  {value : Except MachineFault Int32}

/-- Whether nothing goes wrong but what can go wrong in an expression that only reads. -/
def Regular (value : Except MachineFault Int32) : Prop :=
  ∀ fault, value = .error fault → fault ∈ readingFaults

theorem regular_ok (v : Int32) : Regular (.ok v) := by
  rintro _ ⟨⟩

private theorem regular_ofQuotient (result : Option Int32) : Regular (ofQuotient result) := by
  cases result with
  | some v => exact regular_ok v
  | none =>
    rintro _ ⟨⟩
    decide

theorem Regular.bind (first : Regular value) (second : ∀ v, Regular (f v)) :
    Regular (value >>= f) := by
  cases value with
  | ok v => exact second v
  | error fault =>
    rintro _ ⟨⟩
    exact first fault rfl

/-- What is known of the items and the operand that an expression compiles to. -/
structure Evaluated (S : Situation) (items : List Item) (x : Operand)
    (value : Except MachineFault Int32) : Prop where
  reads : Reads S (items ++ x.loadItems) value
  regular : Regular value
  noMethod : x.kind ≠ .method
  /-- A constant has no items, since its value is part of the operand. -/
  constant : x.kind = .con → items = [] ∧ value = .ok x.value

namespace Evaluated

/-- A value that is on the stack. -/
theorem stacked (reads : Reads S items value) (regular : Regular value)
    (onStack : x.kind = .stack) : Evaluated S items x value where
  reads := by simpa [loadItems, onStack] using reads
  regular := regular
  noMethod := by simp [onStack]
  constant := by simp [onStack]

theorem ofConstant (isConstant : x.kind = .con) : Evaluated S [] x (.ok x.value) where
  reads := by
    have load : x.loadItems = [.const x.value.toInt] := by simp [loadItems, isConstant]
    rw [load]
    exact .single (by simp) fun m _ => Item.execute_const x.value m
  regular := regular_ok _
  noMethod := by simp [isConstant]
  constant _ := ⟨rfl, rfl⟩

/-- An operand with its sign changed: a constant becomes another one, and else the value on the
stack is negated. -/
theorem negate (evaluated : Evaluated S items x value) :
    Evaluated S (items ++ x.negateItems) x.negated (value >>= fun v => pure (-v)) := by
  by_cases isConstant : x.kind = .con
  · obtain ⟨rfl, rfl⟩ := evaluated.constant isConstant
    have negated : Evaluated S [] { x with value := -x.value }
        (Except.ok x.value >>= fun v => pure (-v)) := ofConstant isConstant
    simpa [Operand.negateItems, Operand.negated, isConstant] using negated
  · have reads : Reads S (items ++ x.loadItems ++ [.plain .neg [] ⟨rfl, rfl⟩])
        (value >>= fun v => pure (-v)) :=
      evaluated.reads.unary rfl fun _ _ _ => rfl
    have negated := stacked (x := x.pushed) reads
      (evaluated.regular.bind fun _ => regular_ok _) rfl
    simpa [Operand.negateItems, Operand.negated, isConstant] using negated

end Evaluated

/-! ## Operators -/

theorem MulOp.execute_item (op : MulOp) : op.item.execute = binary op.apply := by
  cases op <;> rfl

theorem AddOp.execute_item (op : AddOp) : op.item.execute = binary op.apply := by
  cases op <;> rfl

/-- Operators and further operands after an operand. -/
theorem Chained.evaluated {Op φ : Type} {item : Op → Item} {operand : Translation φ}
    {apply : Op → Int32 → Int32 → Option Int32} {admits : φ → Bool}
    {evaluate : φ → Except MachineFault Int32}
    (evaluateChain : Int32 → List (Op × φ) → Except MachineFault Int32)
    (runs : ∀ op, (item op).execute = binary (apply op))
    (sequential : ∀ op, (item op).isSequential = true)
    (inner : ∀ ⦃e items x t'⦄, operand t e items x t' → admits e = true →
      t' = t ∧ Evaluated S items x (evaluate e)) (nil : ∀ v, evaluateChain v [] = .ok v)
    (cons : ∀ v op e rest, evaluateChain v ((op, e) :: rest) =
      evaluate e >>= fun w => ofQuotient (apply op v w) >>= fun u => evaluateChain u rest)
    {rest : List (Op × φ)} (chained : Chained item operand t x rest items y t')
    (admitted : ∀ entry ∈ rest, admits entry.2 = true) (first : Evaluated S front x value) :
    t' = t ∧ Evaluated S (front ++ items) y (value >>= fun v => evaluateChain v rest) := by
  induction chained generalizing front value with
  | nil =>
    have whole : (value >>= fun v => Except.ok v) = value := bind_pure value
    simpa [nil, whole] using first
  | @cons t x op e items1 y t1 rest items2 z t' _ compiled _ _ _ ih =>
    obtain ⟨rfl, second⟩ := inner compiled (admitted (op, e) mem_cons_self)
    have both := first.reads.operator second.reads (sequential op) (runs op)
    have regular := first.regular.bind fun a => second.regular.bind fun b =>
      regular_ofQuotient (apply op a b)
    obtain ⟨rfl, last⟩ := ih inner (fun entry member => admitted entry (mem_cons_of_mem _ member))
      (.stacked (x := x.pushed) both regular rfl)
    exact ⟨rfl, by simpa [cons] using last⟩

end Syntax

end MicroJava

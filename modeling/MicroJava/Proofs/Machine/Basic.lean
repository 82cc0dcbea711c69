import Mathlib.Data.Set.Defs
import Mathlib.Logic.Function.Iterate
import MicroJava.Code.Buffer

/-! # The stack machine

The machine that compiled code is meant for. It works on words of 32 bits, which arithmetic wraps
around, and has a stack of operands, frames of local variables, a data area, a heap and an output.
`step` runs one instruction; a machine that has finished or met a fault stays as it is.
-/

namespace MicroJava

/-- What keeps a machine from going on. -/
inductive MachineFault where
  | noEntry
  /-- No complete instruction begins at the address. -/
  | badAddress (pc : Nat)
  | stackUnderflow
  | nullReference
  | indexOutOfBounds
  /-- The frame or the data area has no such variable. -/
  | noVariable
  /-- A quotient does not exist or does not fit. -/
  | divideByZero
  | trap (code : Int)
  /-- The machine has no input, and no shifts. -/
  | unsupported (op : Opcode)
deriving DecidableEq, Repr

/-! ## Words -/

/-- A quotient, rounded towards zero. -/
def quotient? (a b : Int32) : Option Int32 :=
  if b = 0 ∨ a = Int32.minValue ∧ b = -1 then none else some (a / b)

/-- The remainder of a division that rounds towards zero. -/
def remainder? (a b : Int32) : Option Int32 :=
  if b = 0 ∨ a = Int32.minValue ∧ b = -1 then none else some (a % b)

/-- A text with blanks before it up to a width. -/
def rightAligned (width : Int32) (text : List Char) : List Char :=
  List.replicate (width.toInt.toNat - text.length) ' ' ++ text

/-- The digits of a number with its sign. -/
def decimal (value : Int32) : List Char := (toString value.toInt).toList

/-- The character with a number, or a question mark if there is none. -/
def character (value : Int32) : Char :=
  if value.toUInt32.toNat.isValidChar then Char.ofNat value.toUInt32.toNat else '?'

/-- What a number of cells hold at an index. -/
def cell? (cells : List Int32) (index : Int) : Option Int32 :=
  if index < 0 then none else cells[index.toNat]?

/-- Cells after a value was stored at an index. -/
def setCell? (cells : List Int32) (index : Int) (value : Int32) : Option (List Int32) :=
  if index < 0 ∨ cells.length ≤ index.toNat then none else some (cells.set index.toNat value)

@[simp] theorem cell?_natCast (cells : List Int32) (i : Nat) : cell? cells i = cells[i]? := by
  have natural : ¬ (i : Int) < 0 := by omega
  simp [cell?, natural]

theorem setCell?_natCast {cells : List Int32} {i : Nat} (inside : i < cells.length)
    (value : Int32) : setCell? cells i value = some (cells.set i value) := by
  have natural : ¬ ((i : Int) < 0 ∨ cells.length ≤ i) := by omega
  simp only [setCell?, Int.toNat_natCast, natural, ↓reduceIte]

/-! ## Machines -/

/-- All that the machine remembers, the next address apart. -/
structure Machine where
  /-- The operands, the last one first. -/
  stack : List Int32 := []
  /-- The local variables of all frames, those of the innermost frame last. -/
  locals : List Int32 := []
  /-- Where each frame begins among the local variables, the innermost first. -/
  frames : List Nat := []
  /-- Where each call goes on, the innermost first. -/
  returns : List Nat := []
  globals : List Int32 := []
  /-- Objects and arrays. A reference is an index plus one, and zero is `null`. -/
  heap : List (List Int32) := []
  output : List Char := []
deriving DecidableEq, Repr

namespace Machine

/-- A step of a machine that does not jump. -/
abbrev Action := Machine → Except MachineFault Machine

def push (value : Int32) (m : Machine) : Machine := { m with stack := value :: m.stack }

/-- Takes the last operand off the stack. -/
def pop (f : Int32 → Action) : Action := fun m =>
  match m.stack with
  | a :: stack => f a { m with stack }
  | [] => .error .stackUnderflow

/-- Goes on with a result; it is a fault if there is none. -/
def require {α : Type} (fault : MachineFault) (result : Option α)
    (f : α → Except MachineFault Machine) : Except MachineFault Machine :=
  match result with
  | some a => f a
  | none => .error fault

/-- Where the innermost frame begins. -/
def frame (m : Machine) : Nat := m.frames.headD 0

/-- The local variables of the innermost frame. -/
def visible (m : Machine) : List Int32 := m.locals.drop m.frame

def loadLocal (slot : Int) : Action := fun m =>
  require .noVariable (cell? m.visible slot) fun value => .ok (m.push value)

def setLocal (slot : Int) (value : Int32) : Action := fun m =>
  require .noVariable (setCell? m.visible slot value) fun cells =>
    .ok { m with locals := m.locals.take m.frame ++ cells }

/-- Adds to a local variable without the stack. -/
def addLocal (slot amount : Int) : Action := fun m =>
  require .noVariable (cell? m.visible slot) fun value =>
    m.setLocal slot (value + Int32.ofInt amount)

def loadGlobal (slot : Int) : Action := fun m =>
  require .noVariable (cell? m.globals slot) fun value => .ok (m.push value)

def setGlobal (slot : Int) (value : Int32) : Action := fun m =>
  require .noVariable (setCell? m.globals slot value) fun globals => .ok { m with globals }

/-- The cells of the object or array that a reference means. -/
def object? (m : Machine) (reference : Int32) : Option (List Int32) :=
  if reference.toInt ≤ 0 then none else m.heap[reference.toInt.toNat - 1]?

/-- Pushes a cell of an object or array. -/
def loadCell (reference : Int32) (index : Int) : Action := fun m =>
  require .nullReference (m.object? reference) fun cells =>
    require .indexOutOfBounds (cell? cells index) fun value => .ok (m.push value)

def setCell (reference : Int32) (index : Int) (value : Int32) : Action := fun m =>
  require .nullReference (m.object? reference) fun cells =>
    require .indexOutOfBounds (setCell? cells index value) fun cells =>
      .ok { m with heap := m.heap.set (reference.toInt.toNat - 1) cells }

/-- Pushes a reference to new cells. -/
def allocate (size : Nat) (m : Machine) : Machine :=
  { m with
    heap := m.heap ++ [List.replicate size 0]
    stack := Int32.ofNat (m.heap.length + 1) :: m.stack }

def print (text : List Char) (width : Int32) (m : Machine) : Machine :=
  { m with output := m.output ++ rightAligned width text }

/-- Replaces the last two operands by a result. -/
def binary (f : Int32 → Int32 → Option Int32) : Action :=
  pop fun b => pop fun a m => require .divideByZero (f a b) fun value => .ok (m.push value)

/-- Opens a frame whose first variables are the last operands. -/
def enterFrame (parameterCount varCount : Nat) : Action := fun m =>
  if m.stack.length < parameterCount then .error .stackUnderflow
  else .ok { m with
    stack := m.stack.drop parameterCount
    locals := m.locals ++ (m.stack.take parameterCount).reverse ++
      List.replicate (varCount - parameterCount) 0
    frames := m.locals.length :: m.frames }

def exitFrame : Action := fun m =>
  match m.frames with
  | start :: frames => .ok { m with frames, locals := m.locals.take start }
  | [] => .error .stackUnderflow

/-- Runs an instruction that does not jump. -/
def perform : (op : Opcode) → (operands : List Int) → Action
  | .load, [slot] => loadLocal slot
  | .load0, [] => loadLocal 0
  | .load1, [] => loadLocal 1
  | .load2, [] => loadLocal 2
  | .load3, [] => loadLocal 3
  | .store, [slot] => pop (setLocal slot)
  | .store0, [] => pop (setLocal 0)
  | .store1, [] => pop (setLocal 1)
  | .store2, [] => pop (setLocal 2)
  | .store3, [] => pop (setLocal 3)
  | .getStatic, [slot] => loadGlobal slot
  | .putStatic, [slot] => pop (setGlobal slot)
  | .getField, [index] => pop fun object => loadCell object index
  | .putField, [index] => pop fun value => pop fun object => setCell object index value
  | .const0, [] => fun m => .ok (m.push 0)
  | .const1, [] => fun m => .ok (m.push 1)
  | .const2, [] => fun m => .ok (m.push 2)
  | .const3, [] => fun m => .ok (m.push 3)
  | .const4, [] => fun m => .ok (m.push 4)
  | .const5, [] => fun m => .ok (m.push 5)
  | .constM1, [] => fun m => .ok (m.push (-1))
  | .const, [value] => fun m => .ok (m.push (Int32.ofInt value))
  | .add, [] => binary fun a b => some (a + b)
  | .sub, [] => binary fun a b => some (a - b)
  | .mul, [] => binary fun a b => some (a * b)
  | .div, [] => binary quotient?
  | .rem, [] => binary remainder?
  | .neg, [] => pop fun a m => .ok (m.push (-a))
  | .inc, [slot, amount] => addLocal slot amount
  | .new, [size] => fun m => .ok (m.allocate size.toNat)
  | .newArray, [_] => pop fun size m => .ok (m.allocate size.toInt.toNat)
  | .aload, [] | .baload, [] => pop fun index => pop fun array => loadCell array index.toInt
  | .astore, [] => pop fun value => pop fun index => pop fun array =>
      setCell array index.toInt value
  | .bastore, [] => pop fun value => pop fun index => pop fun array =>
      setCell array index.toInt (value &&& 0xff)
  | .arrayLength, [] => pop fun array m =>
      require .nullReference (m.object? array) fun cells =>
        .ok (m.push (Int32.ofNat cells.length))
  | .pop, [] => pop fun _ m => .ok m
  | .dup, [] => pop fun a m => .ok ((m.push a).push a)
  | .dup2, [] => pop fun b => pop fun a m => .ok ((((m.push a).push b).push a).push b)
  | .enter, [parameterCount, varCount] => enterFrame parameterCount.toNat varCount.toNat
  | .exit, [] => exitFrame
  | .print, [] => pop fun width => pop fun value m => .ok (m.print (decimal value) width)
  | .bprint, [] => pop fun width => pop fun value m => .ok (m.print [character value] width)
  | .trap, [code] => fun _ => .error (.trap code)
  | .nop, [] => .ok
  | op, _ => fun _ => .error (.unsupported op)

/-! ## Running -/

/-- A machine that runs or has stopped. -/
inductive State where
  | running (pc : Nat) (m : Machine)
  | finished (m : Machine)
  /-- The machine is left as it was before the instruction. -/
  | faulted (fault : MachineFault) (m : Machine)

def State.machine : State → Machine
  | running _ m => m
  | finished m => m
  | faulted _ m => m

end Machine

/-- The relation that a conditional jump tests. -/
def Opcode.relation? : Opcode → Option Comparison
  | jeq => some .eq
  | jne => some .ne
  | jlt => some .lt
  | jle => some .le
  | jgt => some .gt
  | jge => some .ge
  | _ => none

namespace Machine

/-- Goes on where a jump or call leads. -/
def transfer (i : Instruction) (m : Machine) : State :=
  match i.target? with
  | some target => .running target m
  | none => .faulted (.badAddress i.addr) m

/-- The machine after an instruction that goes on at the next one. -/
def goOn (m : Machine) (next : Nat) : Except MachineFault Machine → State
  | .ok m' => .running next m'
  | .error fault => .faulted fault m

/-- Runs an instruction whose operation is known. -/
def runInstruction (i : Instruction) (op : Opcode) (m : Machine) : State :=
  match op with
  | .jmp => transfer i m
  | .call => transfer i { m with returns := (i.addr + i.length) :: m.returns }
  | .ret =>
    match m.returns with
    | pc :: returns => .running pc { m with returns }
    | [] => .finished m
  | op =>
    match op.relation? with
    | some relation =>
      match m.stack with
      | b :: a :: stack =>
        if relation.holds a b then transfer i { m with stack }
        else .running (i.addr + i.length) { m with stack }
      | _ => .faulted .stackUnderflow m
    | none => m.goOn (i.addr + i.length) (m.perform op i.operands)

/-- Runs one instruction of a code. -/
def step (code : List Instruction) : State → State
  | .running pc m =>
    match code.find? (·.addr == pc) with
    | some i =>
      match i.op? with
      | some op => runInstruction i op m
      | none => .faulted (.badAddress pc) m
    | none => .faulted (.badAddress pc) m
  | stopped => stopped

/-- The machine before the first instruction: all global variables are zero. -/
def start (c : CodeBuffer) : State :=
  match c.entry with
  | some pc => .running pc { globals := List.replicate c.dataSize 0 }
  | none => .faulted .noEntry { globals := List.replicate c.dataSize 0 }

/-- The machine after a number of steps. -/
def after (c : CodeBuffer) (n : Nat) : State := (step c.instructions)^[n] (start c)

end Machine

/-! ## What can be seen of a run -/

/-- What can be seen of a program that runs. -/
inductive Behaviour where
  /-- It comes to its end. -/
  | finished (globals : List Int32) (output : List Char)
  /-- It divides where there is no quotient. -/
  | faulted (globals : List Int32) (output : List Char)
  /-- It goes on for ever; `shown` are the texts that its output begins with at some time. -/
  | diverges (shown : Set (List Char))

/-- How code behaves on the machine. -/
def CodeBuffer.Behaves (c : CodeBuffer) : Behaviour → Prop
  | .finished globals output =>
    ∃ n m, Machine.after c n = .finished m ∧ m.globals = globals ∧ m.output = output
  | .faulted globals output =>
    ∃ n m, Machine.after c n = .faulted .divideByZero m ∧ m.globals = globals ∧ m.output = output
  | .diverges shown =>
    (∀ n, ∃ pc m, Machine.after c n = .running pc m) ∧
      shown = { text | ∃ n, text <+: (Machine.after c n).machine.output }

namespace Machine

variable {code : List Instruction} {c : CodeBuffer}

/-- Whether a machine does not run any more. -/
def State.isStopped : State → Bool
  | running _ _ => false
  | finished _ => true
  | faulted _ _ => true

private theorem step_eq_self {s : State} (stopped : s.isStopped = true) : step code s = s := by
  cases s with
  | running pc m => cases stopped
  | finished m => rfl
  | faulted fault m => rfl

theorem after_add (n k : Nat) : after c (n + k) = (step c.instructions)^[k] (after c n) := by
  rw [after, after, Nat.add_comm, Function.iterate_add_apply]

/-- A machine that has stopped stays as it is. -/
theorem after_eq_of_le {n k : Nat} (stopped : (after c n).isStopped = true) (later : n ≤ k) :
    after c k = after c n := by
  obtain ⟨more, rfl⟩ := Nat.exists_eq_add_of_le later
  rw [after_add]
  exact Function.iterate_fixed (step_eq_self stopped) more

private theorem stopped_unique {n k : Nat} {s s' : State} (ends : after c n = s)
    (stopped : s.isStopped = true) (ends' : after c k = s') (stopped' : s'.isStopped = true) :
    s = s' := by
  subst ends ends'
  rcases Nat.le_total n k with earlier | later
  · exact (after_eq_of_le stopped earlier).symm
  · exact after_eq_of_le stopped' later

end Machine

/-- Code behaves in one way only. -/
theorem CodeBuffer.Behaves.unique {c : CodeBuffer} {a b : Behaviour} (first : c.Behaves a)
    (second : c.Behaves b) : a = b := by
  have running {n : Nat} {s : Machine.State} (ends : Machine.after c n = s)
      (stopped : s.isStopped = true) : ¬ ∀ n, ∃ pc m, Machine.after c n = .running pc m := by
    intro forever
    obtain ⟨pc, m, runs⟩ := forever n
    subst ends
    rw [runs] at stopped
    cases stopped
  cases a with
  | finished =>
    obtain ⟨n, m, ends, rfl, rfl⟩ := first
    cases b with
    | finished =>
      obtain ⟨k, m', ends', rfl, rfl⟩ := second
      cases Machine.stopped_unique ends rfl ends' rfl
      rfl
    | faulted =>
      obtain ⟨k, m', ends', _⟩ := second
      cases Machine.stopped_unique ends rfl ends' rfl
    | diverges => exact absurd second.1 (running ends rfl)
  | faulted =>
    obtain ⟨n, m, ends, rfl, rfl⟩ := first
    cases b with
    | finished =>
      obtain ⟨k, m', ends', _⟩ := second
      cases Machine.stopped_unique ends rfl ends' rfl
    | faulted =>
      obtain ⟨k, m', ends', rfl, rfl⟩ := second
      cases Machine.stopped_unique ends rfl ends' rfl
      rfl
    | diverges => exact absurd second.1 (running ends rfl)
  | diverges =>
    cases b with
    | finished =>
      obtain ⟨k, m', ends', _⟩ := second
      exact absurd first.1 (running ends' rfl)
    | faulted =>
      obtain ⟨k, m', ends', _⟩ := second
      exact absurd first.1 (running ends' rfl)
    | diverges => rw [first.2, second.2]

end MicroJava

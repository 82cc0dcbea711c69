import MicroJava.Proofs.MethodCode

/-! # Stacks of types

The types of what is on the operand stack before an instruction of a method. `Frame.Step` has a rule
for every instruction that the compiler uses: which types the instruction finds on the stack and
which it leaves there. `Frame.Verifies` says that every instruction of a method follows its rule and
that an instruction finds what those before it leave, whichever way control takes.
-/

namespace MicroJava

open Items Item List

/-! ## Types of values -/

/-- What is known of a value on the stack. -/
inductive StackType where
  /-- An integer or a character. -/
  | scalar
  | null
  /-- A reference to an object of a class. -/
  | object (type : TypeId)
  /-- A reference to an array. -/
  | array (type : TypeId)

namespace StackType

/-- The type of a reference. -/
def reference? : StackType → Option TypeId
  | scalar => none
  | null => some .null
  | object type | array type => some type

/-- Whether a value can be stored where a type is expected. -/
def fits (types : TypeTable) (value : StackType) (type : TypeId) : Bool :=
  match value.reference? with
  | none => type == .int || type == .char
  | some source => types.assignable source type

/-- Whether two values can be compared. -/
def comparable (types : TypeTable) (a b : StackType) : Bool :=
  match a.reference?, b.reference? with
  | none, none => true
  | some a, some b => types.comparable a b
  | _, _ => false

end StackType

/-- What is known of a value of a type. -/
def TypeTable.stackType (types : TypeTable) (type : TypeId) : StackType :=
  if type = .null then .null
  else if types.isArray type then .array type
  else if types.isClass type then .object type
  else .scalar

namespace SymbolTable

/-- The types of the variables of a method or of the program, in the order of their slots. -/
def slotTypes (t : SymbolTable) (owner : EntityId) : List TypeId :=
  ((t.entity owner).locals.filter fun id => (t.entity id).kind == .var).map
    fun id => (t.entity id).type

/-- The types of the parameters of a method. -/
def parameterTypes (t : SymbolTable) (method : EntityId) : List TypeId :=
  (t.entity method).parameters.map fun id => (t.entity id).type

end SymbolTable

/-- A method in the symbol table at the end of a compilation. -/
structure Frame where
  table : SymbolTable
  method : EntityId

namespace Frame

/-- The types of the parameters and local variables, by slot. -/
def slots (v : Frame) : List TypeId := v.table.slotTypes v.method

/-- The types of the global variables, by slot. The program is the first entity that a text
declares. -/
def globals (v : Frame) : List TypeId := v.table.slotTypes SymbolTable.initial.next

/-- What the method returns. -/
def returns (v : Frame) : TypeId := (v.table.entity v.method).type

def stackType (v : Frame) (type : TypeId) : StackType := v.table.types.stackType type

/-- What a call leaves on the stack: one value, unless nothing is returned. -/
def result (v : Frame) (type : TypeId) : List StackType :=
  if type = .none then [] else [v.stackType type]

end Frame

/-! ## Instructions -/

namespace Opcode

/-- The slot of the local variable that an instruction pushes. -/
def loadSlot? : Opcode → List Int → Option Int
  | load, [slot] => some slot
  | load0, [] => some 0
  | load1, [] => some 1
  | load2, [] => some 2
  | load3, [] => some 3
  | _, _ => none

/-- The slot of the local variable that an instruction stores to. -/
def storeSlot? : Opcode → List Int → Option Int
  | store, [slot] => some slot
  | store0, [] => some 0
  | store1, [] => some 1
  | store2, [] => some 2
  | store3, [] => some 3
  | _, _ => none

/-- The number that an instruction pushes. -/
def constant? : Opcode → List Int → Option Int
  | const, [value] => some value
  | const0, [] => some 0
  | const1, [] => some 1
  | const2, [] => some 2
  | const3, [] => some 3
  | const4, [] => some 4
  | const5, [] => some 5
  | constM1, [] => some (-1)
  | _, _ => none

/-- Whether an instruction replaces two integers by one. -/
def isArithmetic : Opcode → Bool
  | add | sub | mul | div | rem => true
  | _ => false

/-- Whether control can go on behind an instruction. -/
def goesOn : Opcode → Bool
  | jmp | ret | trap => false
  | _ => true

end Opcode

namespace Frame

variable (v : Frame)

/-- The instruction with some operands, and with a target if it is a jump or call, takes a stack of
types to another one. The top of the stack comes first. -/
inductive Step : Opcode → List Int → (target? : Option Nat) → List StackType → List StackType →
    Prop where
  /-- The arguments become the first local variables. -/
  | enter : Step .enter [(v.table.entity v.method).parameterCount, v.slots.length] none
      ((v.table.parameterTypes v.method).map v.stackType).reverse []
  | load {op operands type σ} {slot : Nat} (isLoad : op.loadSlot? operands = some (slot : Int))
      (known : v.slots[slot]? = some type) :
      Step op operands none σ (v.stackType type :: σ)
  | store {op operands type value σ} {slot : Nat}
      (isStore : op.storeSlot? operands = some (slot : Int)) (known : v.slots[slot]? = some type)
      (fits : value.fits v.table.types type = true) : Step op operands none (value :: σ) σ
  | inc {amount σ} {slot : Nat} (known : v.slots[slot]? = some .int) :
      Step .inc [(slot : Int), amount] none σ σ
  | getStatic {type σ} {slot : Nat} (known : v.globals[slot]? = some type) :
      Step .getStatic [(slot : Int)] none σ (v.stackType type :: σ)
  | putStatic {type value σ} {slot : Nat} (known : v.globals[slot]? = some type)
      (fits : value.fits v.table.types type = true) :
      Step .putStatic [(slot : Int)] none (value :: σ) σ
  | getField {a field σ} {index : Nat} (isClass : v.table.types.isClass a = true)
      (known : (v.table.types.fields a)[index]? = some field) :
      Step .getField [(index : Int)] none (.object a :: σ)
        (v.stackType (v.table.entity field).type :: σ)
  | putField {a field value σ} {index : Nat} (isClass : v.table.types.isClass a = true)
      (known : (v.table.types.fields a)[index]? = some field)
      (fits : value.fits v.table.types (v.table.entity field).type = true) :
      Step .putField [(index : Int)] none (value :: .object a :: σ) σ
  | const {op operands σ} (isConst : (op.constant? operands).isSome = true) :
      Step op operands none σ (.scalar :: σ)
  | null {σ} : Step .const0 [] none σ (.null :: σ)
  | arithmetic {op σ} (isArithmetic : op.isArithmetic = true) :
      Step op [] none (.scalar :: .scalar :: σ) (.scalar :: σ)
  | neg {σ} : Step .neg [] none (.scalar :: σ) (.scalar :: σ)
  | new {a σ} (isClass : v.table.types.isClass a = true) :
      Step .new [((v.table.types.fields a).length : Int)] none σ (.object a :: σ)
  | newArray {a σ} (isArray : v.table.types.isArray a = true) :
      Step .newArray [if v.table.types.elemType a = .char then 0 else 1] none (.scalar :: σ)
        (.array a :: σ)
  | aload {a σ} (isArray : v.table.types.isArray a = true)
      (elem : v.table.types.elemType a ≠ .char) :
      Step .aload [] none (.scalar :: .array a :: σ) (v.stackType (v.table.types.elemType a) :: σ)
  | baload {a σ} (isArray : v.table.types.isArray a = true)
      (elem : v.table.types.elemType a = .char) :
      Step .baload [] none (.scalar :: .array a :: σ) (.scalar :: σ)
  | astore {a value σ} (isArray : v.table.types.isArray a = true)
      (elem : v.table.types.elemType a ≠ .char)
      (fits : value.fits v.table.types (v.table.types.elemType a) = true) :
      Step .astore [] none (value :: .scalar :: .array a :: σ) σ
  | bastore {a σ} (isArray : v.table.types.isArray a = true)
      (elem : v.table.types.elemType a = .char) :
      Step .bastore [] none (.scalar :: .scalar :: .array a :: σ) σ
  /-- Any array has a length; that of `null` is a fault of its own. -/
  | arrayLength {value σ} (fits : value.fits v.table.types SymbolTable.openArray = true) :
      Step .arrayLength [] none (value :: σ) (.scalar :: σ)
  | pop {value σ} : Step .pop [] none (value :: σ) σ
  | dup {value σ} : Step .dup [] none (value :: σ) (value :: value :: σ)
  | dup2 {a b σ} : Step .dup2 [] none (b :: a :: σ) (b :: a :: b :: a :: σ)
  | jump {operands target σ} : Step .jmp operands (some target) σ σ
  /-- Only numbers are ordered. -/
  | compare {relation : Comparison} {op operands target a b σ} (tests : relation.jump = op)
      (comparable : a.comparable v.table.types b = true)
      (ordered : relation.isOrder = true → a = .scalar) :
      Step op operands (some target) (b :: a :: σ) σ
  /-- All arguments are taken off the stack, the last one first. -/
  | call {method operands args σ} {target : Nat} (isMethod : v.table.IsMethod method)
      (begins : (v.table.entity method).adr = target)
      (count : args.length = (v.table.entity method).parameterCount)
      (fits : Forall₂ (fun value type => value.fits v.table.types type = true) args
        (v.table.parameterTypes method)) :
      Step .call operands (some target) (args.reverse ++ σ)
        (v.result (v.table.entity method).type ++ σ)
  | exit {σ} : Step .exit [] none σ σ
  | returnNothing (void : v.returns = .none) : Step .ret [] none [] []
  | returnValue {value} (result : v.returns ≠ .none)
      (fits : value.fits v.table.types v.returns = true) : Step .ret [] none [value] []
  | read {op σ} (reads : op = .read ∨ op = .bread) : Step op [] none σ (.scalar :: σ)
  | print {op σ} (prints : op = .print ∨ op = .bprint) : Step op [] none (.scalar :: .scalar :: σ) σ
  | trap {code σ} : Step .trap [code] none σ σ

/-- Whether `stack` tells for every instruction of a method what it finds on the stack. -/
structure Verifies (code : List Instruction) (stack : Nat → List StackType) : Prop where
  /-- An instruction finds what it needs, and its successors find what it leaves. -/
  step : ∀ i ∈ code, ∃ op after, i.op? = some op ∧
    v.Step op i.operands i.target? (stack i.addr) after ∧
    (op.goesOn = true → stack (i.addr + i.length) = after) ∧
    (i.isJump = true → ∃ target, i.target? = some target ∧ stack target = after)
  entered : ∀ i ∈ code, i.op? = some .enter → stack (i.addr + i.length) = []
  target : ∀ i ∈ code, i.isJump = true → ∀ target ∈ i.target?, stack target = []

/-! ## Items -/

/-- The item takes a stack of types to another one. Behind a jump the stack is empty. -/
def Takes (σ : List StackType) (i : Item) (τ : List StackType) : Prop :=
  match i with
  | .plain op operands _ =>
    v.Step op operands none σ τ ∧ ∀ pair ∈ op.widths.zip operands, pair.1.Fits pair.2
  | .jump when? (.address target) =>
    τ = [] ∧ ∀ operands, v.Step (Item.jumpOp when?) operands (some target) σ []
  | .jump _ (.waiting _) => False
  | .call adr => ∃ target : Nat, adr = target ∧ ∀ operands, v.Step .call operands (some target) σ τ

/-- Items one after the other take a stack of types to another one. -/
inductive Typed : List StackType → List Item → List StackType → Prop where
  | nil {σ} : Typed σ [] σ
  | cons {σ i τ items ρ} (first : v.Takes σ i τ) (more : Typed τ items ρ) : Typed σ (i :: items) ρ

/-- The stack is empty at some addresses in items that begin at an address, among them the first and
the last. -/
inductive Clear : Nat → List Item → List Nat → Prop where
  | nil {base} : Clear base [] [base]
  | block {base items₁ items₂ marks} (typed : v.Typed [] items₁ [])
      (more : Clear (base + Items.size items₁) items₂ marks) :
      Clear base (items₁ ++ items₂) (base :: marks)

/-- Whether `stack` tells what each of some items at an address finds on the stack. -/
def Along (stack : Nat → List StackType) (base : Nat) (items : List Item) : Prop :=
  ∀ front i back, items = front ++ i :: back →
    v.Takes (stack (base + Items.size front)) i (stack (base + Items.size front + i.size))

variable {v} {σ τ ρ : List StackType} {i : Item} {items front back : List Item} {base : Nat}
  {marks more : List Nat} {stack : Nat → List StackType}

theorem Takes.typed (takes : v.Takes σ i τ) : v.Typed σ [i] τ := .cons takes .nil

theorem Typed.append (first : v.Typed σ front τ) (second : v.Typed τ back ρ) :
    v.Typed σ (front ++ back) ρ := by
  induction first with
  | nil => exact second
  | cons takes _ ih => exact .cons takes (ih second)

theorem Typed.behind (typed : v.Typed σ items τ) (takes : v.Takes τ i ρ) :
    v.Typed σ (items ++ [i]) ρ := typed.append takes.typed

theorem Clear.of_typed (typed : v.Typed [] items []) :
    v.Clear base items [base, base + size items] := by
  simpa using Clear.block typed .nil

theorem Clear.append (first : v.Clear base front marks)
    (second : v.Clear (base + size front) back more) :
    v.Clear base (front ++ back) (marks ++ more) := by
  induction first with
  | nil => exact .block .nil second
  | block typed _ ih =>
    rw [append_assoc, cons_append]
    exact .block typed (ih (by simpa [Nat.add_assoc] using second))

theorem Clear.start_mem (clear : v.Clear base items marks) : base ∈ marks := by
  cases clear <;> exact mem_cons_self

theorem Clear.end_mem (clear : v.Clear base items marks) : base + size items ∈ marks := by
  induction clear with
  | nil => exact mem_cons_self
  | block _ _ ih => exact mem_cons_of_mem _ (by simpa [Nat.add_assoc] using ih)

theorem Clear.le (clear : v.Clear base items marks) : ∀ adr ∈ marks, base ≤ adr := by
  induction clear with
  | nil => simp
  | block _ _ ih =>
    intro adr member
    rcases mem_cons.mp member with rfl | member
    · exact Nat.le_refl _
    · exact Nat.le_trans (Nat.le_add_right _ _) (ih adr member)

theorem Along.cons (takes : v.Takes (stack base) i (stack (base + i.size)))
    (along : v.Along stack (base + i.size) items) : v.Along stack base (i :: items) := by
  intro front other back same
  cases front with
  | nil =>
    obtain ⟨rfl, rfl⟩ := cons.inj same
    exact takes
  | cons first front =>
    obtain ⟨rfl, rfl⟩ := cons.inj same
    simpa [Nat.add_assoc] using along front other back rfl

/-- A stack for what follows items is extended to the items. -/
theorem Typed.extend (typed : v.Typed σ items τ) (later : stack (base + size items) = τ) :
    ∃ stack' : Nat → List StackType, stack' base = σ ∧ v.Along stack' base items ∧
      ∀ adr, base + size items ≤ adr → stack' adr = stack adr := by
  induction typed generalizing base with
  | nil => exact ⟨stack, later, by simp [Along], fun _ _ => rfl⟩
  | @cons σ i τ items ρ takes typed ih =>
    have later : stack (base + i.size + size items) = ρ := by
      simpa [Nat.add_assoc] using later
    obtain ⟨stack', start, along, same⟩ := ih later
    have positive := i.size_pos
    have others (adr : Nat) (behind : base < adr) :
        (if adr = base then σ else stack' adr) = stack' adr := if_neg (by omega)
    refine ⟨fun adr => if adr = base then σ else stack' adr, if_pos rfl, .cons ?_ ?_, ?_⟩
    · simp only [if_true, if_neg (show ¬ base + i.size = base by omega), start]
      exact takes
    · intro front other back split
      simp only [others _ (show base < base + i.size + size front by omega),
        others _ (show base < base + i.size + size front + other.size by omega)]
      exact along front other back split
    · intro adr behind
      rw [size_cons] at behind
      exact (others adr (by omega)).trans (same adr (by omega))

theorem Along.append (first : v.Along stack base front)
    (second : v.Along stack (base + size front) back) : v.Along stack base (front ++ back) := by
  induction front generalizing base with
  | nil => exact second
  | cons i front ih =>
    refine .cons (by simpa using first [] i front rfl) (ih ?_ ?_)
    · intro inner other behind same
      simpa [Nat.add_assoc] using first (i :: inner) other behind (by simp [same])
    · simpa [Nat.add_assoc] using second

/-- There is a stack for all items that is empty where it has to be. -/
theorem Clear.exists_along (clear : v.Clear base items marks) :
    ∃ stack : Nat → List StackType, v.Along stack base items ∧ ∀ adr ∈ marks, stack adr = [] := by
  induction clear with
  | nil => exact ⟨fun _ => [], by simp [Along], fun _ _ => rfl⟩
  | block typed more ih =>
    obtain ⟨stack, along, clear⟩ := ih
    obtain ⟨stack', start, along', same⟩ := typed.extend (clear _ more.start_mem)
    refine ⟨stack', along'.append ?_, fun adr member => ?_⟩
    · intro front i back split
      rw [same _ (by omega), same _ (by omega)]
      exact along front i back split
    · rcases mem_cons.mp member with rfl | member
      · exact start
      · rw [same adr (more.le adr member)]
        exact clear adr member

end Frame

/-! ## Instructions of items -/

theorem Item.target?_plain {op : Opcode} {operands : List Int} (adr : Nat)
    (proper : operands.length = op.widths.length ∧ op.isTransfer = false) :
    ((plain op operands proper).instruction adr).target? = none := by
  simp only [Instruction.target?, instruction_op?, opcode, Option.bind_eq_bind,
    Option.bind_some, proper.2, Bool.not_false, if_true]
  rfl

namespace Frame

variable {v : Frame} {items : List Item} {base : Nat} {stack : Nat → List StackType}

theorem Step.enter_after {operands : List Int} {target? : Option Nat} {σ τ : List StackType}
    (step : v.Step .enter operands target? σ τ) : τ = [] := by
  cases step with
  | enter => rfl
  | load isLoad => simp [Opcode.loadSlot?] at isLoad
  | store isStore => simp [Opcode.storeSlot?] at isStore
  | const isConst => simp [Opcode.constant?] at isConst
  | arithmetic isArithmetic => cases isArithmetic
  | @compare relation => cases relation <;> contradiction
  | read reads => simp at reads
  | print prints => simp at prints

/-- What is known of items holds of the instructions that they are encoded as. -/
theorem Along.verifies (along : v.Along stack base items) (near : farCount base items = 0)
    (leads : Leads [] (fun adr => stack adr = []) items) :
    v.Verifies (instructions base items) stack := by
  have step (i) (member : i ∈ instructions base items) : ∃ op, i.op? = some op ∧
      v.Step op i.operands i.target? (stack i.addr) (stack (i.addr + i.length)) ∧
      (i.isJump = true → ∃ target, i.target? = some target ∧ stack target = [] ∧
        stack (i.addr + i.length) = []) := by
    obtain ⟨front, item, back, rfl, rfl⟩ := mem_instructions member
    have takes := along front item back rfl
    have close := isFar_of_farCount near
    refine ⟨item.opcode, instruction_op? _ _, ?_⟩
    rw [instruction_addr, instruction_length]
    cases item with
    | plain op operands proper =>
      obtain ⟨takes, fit⟩ := takes
      rw [instruction_operands_of_fits _ (.plain op operands proper) fit, target?_plain]
      refine ⟨takes, fun jumps => ?_⟩
      obtain ⟨_, _, impossible⟩ := isJump_instruction jumps
      cases impossible
    | call adr =>
      obtain ⟨target, rfl, takes⟩ := takes
      rw [instruction_target? _ _ rfl close]
      refine ⟨takes _, fun jumps => ?_⟩
      obtain ⟨_, _, impossible⟩ := isJump_instruction jumps
      cases impossible
    | jump when? target =>
      cases target with
      | waiting label => exact takes.elim
      | address target =>
        obtain ⟨empty, takes⟩ := takes
        rw [instruction_target? _ _ rfl close, empty]
        exact ⟨takes _, fun _ => ⟨target, rfl, leads when? (.address target) (by simp), rfl⟩⟩
  refine ⟨fun i member => ?_, fun i member enters => ?_, fun i member jumps target found => ?_⟩
  · obtain ⟨op, isOp, takes, jumps⟩ := step i member
    refine ⟨op, _, isOp, takes, fun _ => rfl, fun isJump => ?_⟩
    obtain ⟨target, isTarget, empty, after⟩ := jumps isJump
    exact ⟨target, isTarget, empty.trans after.symm⟩
  · obtain ⟨op, isOp, takes, _⟩ := step i member
    rw [enters, Option.some.injEq] at isOp
    subst isOp
    exact takes.enter_after
  · obtain ⟨_, _, _, leads⟩ := step i member
    obtain ⟨_, isTarget, empty, _⟩ := leads jumps
    rw [isTarget, Option.mem_def, Option.some.injEq] at found
    rw [← found, empty]

end Frame

end MicroJava

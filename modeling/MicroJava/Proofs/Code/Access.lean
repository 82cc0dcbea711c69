import MicroJava.Proofs.Code.Resolve

/-! # Operands as items

The items that push the value of an operand, store to it or step it. Each operation on code that an
operand offers assembles these items, and reports a problem exactly if the operand is of the wrong
kind for it.
-/

namespace MicroJava

open CodeBuffer

namespace Item

/-- Pushes a number. -/
def const : (value : Int) → Item
  | -1 => .plain .constM1 [] ⟨rfl, rfl⟩
  | 0 => .plain .const0 [] ⟨rfl, rfl⟩
  | 1 => .plain .const1 [] ⟨rfl, rfl⟩
  | 2 => .plain .const2 [] ⟨rfl, rfl⟩
  | 3 => .plain .const3 [] ⟨rfl, rfl⟩
  | 4 => .plain .const4 [] ⟨rfl, rfl⟩
  | 5 => .plain .const5 [] ⟨rfl, rfl⟩
  | n => .plain .const [n] ⟨rfl, rfl⟩

/-- Pushes a local variable. -/
def load : (slot : Int) → Item
  | 0 => .plain .load0 [] ⟨rfl, rfl⟩
  | 1 => .plain .load1 [] ⟨rfl, rfl⟩
  | 2 => .plain .load2 [] ⟨rfl, rfl⟩
  | 3 => .plain .load3 [] ⟨rfl, rfl⟩
  | slot => .plain .load [slot] ⟨rfl, rfl⟩

/-- Stores to a local variable. -/
def store : (slot : Int) → Item
  | 0 => .plain .store0 [] ⟨rfl, rfl⟩
  | 1 => .plain .store1 [] ⟨rfl, rfl⟩
  | 2 => .plain .store2 [] ⟨rfl, rfl⟩
  | 3 => .plain .store3 [] ⟨rfl, rfl⟩
  | slot => .plain .store [slot] ⟨rfl, rfl⟩

/-- Pushes an array element. -/
def loadElement (elem : TypeId) : Item :=
  if elem = .char then .plain .baload [] ⟨rfl, rfl⟩ else .plain .aload [] ⟨rfl, rfl⟩

/-- Stores to an array element. -/
def storeElement (elem : TypeId) : Item :=
  if elem = .char then .plain .bastore [] ⟨rfl, rfl⟩ else .plain .astore [] ⟨rfl, rfl⟩

/-- Allocates an array. -/
def newArray (elem : TypeId) : Item :=
  .plain .newArray [if elem = .char then 0 else 1] ⟨rfl, rfl⟩

@[simp] theorem isJump_const (value : Int) : (const value).isJump = false := by
  fun_cases const value <;> rfl

@[simp] theorem isJump_load (slot : Int) : (load slot).isJump = false := by
  fun_cases load slot <;> rfl

@[simp] theorem isJump_store (slot : Int) : (store slot).isJump = false := by
  fun_cases store slot <;> rfl

@[simp] theorem isJump_loadElement (elem : TypeId) : (loadElement elem).isJump = false := by
  unfold loadElement
  split <;> rfl

@[simp] theorem isJump_storeElement (elem : TypeId) : (storeElement elem).isJump = false := by
  unfold storeElement
  split <;> rfl

@[simp] theorem isJump_newArray (elem : TypeId) : (newArray elem).isJump = false := rfl

@[simp] theorem isJump_plain {op : Opcode} {operands : List Int}
    (proper : operands.length = op.widths.length ∧ op.isTransfer = false) :
    (plain op operands proper).isJump = false := rfl

@[simp] theorem isJump_call (adr : Int) : (call adr).isJump = false := rfl

end Item

namespace CodeBuffer

theorem loadConst_eq (c : CodeBuffer) (value : Int32) :
    c.loadConst value = c.add (.const value.toInt) := by
  unfold loadConst
  fun_cases Opcode.constShort? value.toInt with
  | case8 => simp [Item.const, add, *]
  | _ => simp [Item.const, add, *]

theorem newArray_eq (c : CodeBuffer) (elem : TypeId) : c.newArray elem = c.add (.newArray elem) :=
  rfl

/-- The items that end a method which returns a type. -/
def finishItems (type : TypeId) : List Item :=
  if type = .none then [.plain .exit [] ⟨rfl, rfl⟩, .plain .ret [] ⟨rfl, rfl⟩]
  else [.plain .trap [1] ⟨rfl, rfl⟩]

theorem finishMethod_eq (c : CodeBuffer) (type : TypeId) :
    c.finishMethod type = c.assemble (finishItems type) := by
  unfold finishMethod finishItems
  split <;> rfl

theorem straight_finishItems (type : TypeId) : Items.Straight (finishItems type) := by
  unfold finishItems
  split <;> simp

end CodeBuffer

namespace Operand

@[simp] theorem type_pushed (x : Operand) : x.pushed.type = x.type := rfl

/-- The items that push the value of an operand, calling it if it is a method. -/
def loadItems (x : Operand) : List Item :=
  match x.kind with
  | .con => [.const x.value.toInt]
  | .staticVar => [.plain .getStatic [x.adr] ⟨rfl, rfl⟩]
  | .localVar => [.load x.adr]
  | .field => [.plain .getField [x.adr] ⟨rfl, rfl⟩]
  | .element => [.loadElement x.type]
  | .method => [.call x.adr]
  | .stack | .condition | .nothing => []

/-- The items that store the top of the stack in an operand. -/
def storeItems (x : Operand) : List Item :=
  match x.kind with
  | .localVar => [.store x.adr]
  | .staticVar => [.plain .putStatic [x.adr] ⟨rfl, rfl⟩]
  | .field => [.plain .putField [x.adr] ⟨rfl, rfl⟩]
  | .element => [.storeElement x.type]
  | _ => []

/-- The items that double what is on the stack of the address of an operand. -/
def keepItems (x : Operand) : List Item :=
  match x.kind with
  | .field => [.plain .dup [] ⟨rfl, rfl⟩]
  | .element => [.plain .dup2 [] ⟨rfl, rfl⟩]
  | _ => []

/-- The items that add one to an integer variable or subtract one from it. -/
def stepItems (x : Operand) (up : Bool) : List Item :=
  match x.kind with
  | .localVar => [.plain .inc [x.adr, if up then 1 else -1] ⟨rfl, rfl⟩]
  | .staticVar | .field | .element =>
    x.keepItems ++ x.loadItems ++
      [if up then .plain .const1 [] ⟨rfl, rfl⟩ else .plain .constM1 [] ⟨rfl, rfl⟩,
        .plain .add [] ⟨rfl, rfl⟩] ++ x.storeItems
  | _ => []

@[simp] theorem straight_loadItems (x : Operand) : Items.Straight x.loadItems := by
  unfold loadItems
  cases x.kind <;> simp

@[simp] theorem straight_storeItems (x : Operand) : Items.Straight x.storeItems := by
  unfold storeItems
  cases x.kind <;> simp

@[simp] theorem straight_keepItems (x : Operand) : Items.Straight x.keepItems := by
  unfold keepItems
  cases x.kind <;> simp

@[simp] theorem straight_stepItems (x : Operand) (up : Bool) : Items.Straight (x.stepItems up) := by
  unfold stepItems
  cases x.kind <;> cases up <;> simp

private theorem loadShort_eq (c : CodeBuffer) (slot : Int) :
    (match Opcode.loadShort? slot with
      | some op => { result := c.emit op [] }
      | none => { result := c.emit .load [slot] } : Reported CodeBuffer) =
      { result := c.add (.load slot) } := by
  fun_cases Opcode.loadShort? slot with
  | case5 => simp [Item.load, add, *]
  | _ => rfl

private theorem storeShort_eq (c : CodeBuffer) (slot : Int) :
    (match Opcode.storeShort? slot with
      | some op => { result := c.emit op [] }
      | none => { result := c.emit .store [slot] } : Reported CodeBuffer) =
      { result := c.add (.store slot) } := by
  fun_cases Opcode.storeShort? slot with
  | case5 => simp [Item.store, add, *]
  | _ => rfl

theorem call_eq (x : Operand) (c : CodeBuffer) :
    x.call c = { result := c.add (.call x.adr),
                 problems := if x.kind = .method then [] else [.semantic .notMethod] } := by
  simp [call, add, Nat.add_assoc]

theorem loadAndKeep_eq (x : Operand) (c : CodeBuffer) (noMethod : x.kind ≠ .method) :
    x.loadAndKeep c = { result := c.assemble x.loadItems,
                        problems := if x.isValueless then [.semantic .valueExpected] else [] } := by
  unfold loadAndKeep loadItems isValueless
  cases kind : x.kind with
  | method => exact absurd kind noMethod
  | con => simp [loadConst_eq]
  | localVar => exact loadShort_eq c x.adr
  | element => by_cases char : x.type = .char <;> simp [Item.loadElement, char, add]
  | _ => rfl

theorem loadValue_eq (x : Operand) (c : CodeBuffer) :
    x.loadValue c = { result := c.assemble x.loadItems,
                      problems := if x.isValueless then [.semantic .valueExpected] else [] } := by
  unfold loadValue
  split
  next kind => simp [call_eq, loadItems, isValueless, kind]
  next noMethod => exact loadAndKeep_eq x c noMethod

private theorem store_eq (x : Operand) (c : CodeBuffer) :
    x.store c = { result := c.assemble x.storeItems,
                  problems := if x.isVariable then [] else [.semantic .variableExpected] } := by
  unfold store storeItems isVariable
  cases kind : x.kind with
  | localVar => exact storeShort_eq c x.adr
  | element => by_cases char : x.type = .char <;> simp [Item.storeElement, char, add]
  | _ => rfl

theorem assign_eq (x y : Operand) (c : CodeBuffer) :
    x.assign y c =
      { result := c.assemble (y.loadItems ++ x.storeItems),
        problems := (if y.isValueless then [.semantic .valueExpected] else []) ++
          if x.isVariable then [] else [.semantic .variableExpected] } := by
  simp [assign, loadValue_eq, store_eq, assemble_append]

theorem keepAddress_eq (x : Operand) (c : CodeBuffer) :
    x.keepAddress c = c.assemble x.keepItems := by
  unfold keepAddress keepItems
  cases x.kind <;> rfl

theorem step_eq (x : Operand) (up : Bool) (c : CodeBuffer) :
    x.step up c =
      { result := c.assemble (x.stepItems up),
        problems := (if x.type = .int then [] else [.semantic .variableNotInt]) ++
          if x.isVariable then [] else [.semantic .variableExpected] } := by
  unfold step stepItems
  cases kind : x.kind with
  | localVar => simp [isVariable, kind, add]
  | staticVar | field | element =>
    have noMethod : x.kind ≠ .method := by simp [kind]
    have valued : x.isValueless = false := by simp [isValueless, kind]
    have storable : x.isVariable = true := by simp [isVariable, kind]
    simp only [loadAndKeep_eq x _ noMethod, keepAddress_eq, assign_eq, valued, storable,
      assemble_append]
    cases up <;> simp [isValueless, onStack, loadItems, add]
  | _ => simp [isVariable, kind]

end Operand

end MicroJava

import Mathlib.Data.List.Basic
import MicroJava.Proofs.Verification.Basic

/-! # Instructions that access storage

Which instructions read or write variables and fields or create objects, and with which operands.
The instructions that items are encoded as do what the items say, as long as the operands fit.
-/

namespace MicroJava

open Items

/-- What an instruction does with a variable, with a field or with an object, by the operands that
are read from the code. -/
inductive Storage where
  | load (slot : Int)
  | store (slot : Int)
  | inc (slot amount : Int)
  | getStatic (slot : Int)
  | putStatic (slot : Int)
  | getField (index : Int)
  | putField (index : Int)
  /-- Creates an object with a number of fields. -/
  | new (count : Int)

/-- What an instruction with some operands does with storage. -/
def Opcode.storage? (op : Opcode) (operands : List Int) : Option Storage :=
  match op, operands with
  | .inc, [slot, amount] => some (.inc slot amount)
  | .getStatic, [slot] => some (.getStatic slot)
  | .putStatic, [slot] => some (.putStatic slot)
  | .getField, [index] => some (.getField index)
  | .putField, [index] => some (.putField index)
  | .new, [count] => some (.new count)
  | op, operands => (op.loadSlot? operands).map .load <|> (op.storeSlot? operands).map .store

def Instruction.storage? (i : Instruction) : Option Storage := i.op?.bind (·.storage? i.operands)

/-- Whether the operands can be read back from the code. -/
def Storage.Fits : Storage → Prop
  | load slot | store slot => Width.byte.Fits slot
  | inc slot amount => Width.byte.Fits slot ∧ Width.byte.Fits amount
  | getStatic slot | putStatic slot => Width.short.Fits slot
  | getField index | putField index => Width.short.Fits index
  | new count => Width.short.Fits count

/-- An instruction with storage can be read back if its operands fit. Other instructions have no
storage, whatever their operands are. -/
theorem Opcode.storage?_cases (op : Opcode) (operands : List Int)
    (proper : operands.length = op.widths.length) :
    (∃ s, op.storage? operands = some s ∧
      (s.Fits → ∀ pair ∈ op.widths.zip operands, pair.1.Fits pair.2)) ∨
    ∀ others, op.storage? others = none := by
  cases op with
  | load0 | load1 | load2 | load3 | store0 | store1 | store2 | store3 =>
    obtain rfl := List.length_eq_zero_iff.mp proper
    exact .inl ⟨_, rfl, by simp⟩
  | load | store | getStatic | putStatic | getField | putField | new =>
    obtain ⟨x, rfl⟩ := List.length_eq_one_iff.mp proper
    exact .inl ⟨_, rfl, by simp [Storage.Fits, widths]⟩
  | inc =>
    obtain ⟨slot, amount, rfl⟩ := List.length_eq_two.mp proper
    exact .inl ⟨_, rfl, by simp [Storage.Fits, widths]⟩
  | _ => exact .inr fun _ => rfl

/-- What an item does with storage. -/
def Item.storage? : Item → Option Storage
  | plain op operands _ => op.storage? operands
  | _ => none

/-- What items do with storage, in order. -/
def Items.storage (items : List Item) : List Storage := items.filterMap Item.storage?

namespace Items

variable {items front back : List Item}

@[simp] theorem storage_nil : storage [] = [] := rfl

@[simp] theorem storage_append : storage (front ++ back) = storage front ++ storage back :=
  List.filterMap_append

@[simp] theorem storage_cons (i : Item) :
    storage (i :: items) = i.storage?.toList ++ storage items := by
  cases found : i.storage? <;> simp [storage, found]

@[simp] theorem storage_resolve (label : OpenLabel) (adr : Nat) :
    storage (resolve label adr items) = storage items := by
  induction items with
  | nil => rfl
  | cons i items ih =>
    have first : (i.resolve label adr).storage? = i.storage? := by cases i <;> rfl
    rw [resolve_cons, storage_cons, storage_cons, first, ih]

end Items

namespace Item

@[simp] theorem storage?_plain {op : Opcode} {operands : List Int}
    (proper : operands.length = op.widths.length ∧ op.isTransfer = false) :
    (plain op operands proper).storage? = op.storage? operands := rfl

@[simp] theorem storage?_jump (when? : Option Comparison) (target : Destination) :
    (jump when? target).storage? = none := rfl

@[simp] theorem storage?_call (adr : Int) : (call adr).storage? = none := rfl

@[simp] theorem storage?_load (slot : Int) : (load slot).storage? = some (.load slot) := by
  fun_cases load slot <;> rfl

@[simp] theorem storage?_store (slot : Int) : (store slot).storage? = some (.store slot) := by
  fun_cases store slot <;> rfl

@[simp] theorem storage?_const (value : Int) : (const value).storage? = none := by
  fun_cases const value <;> rfl

@[simp] theorem storage?_loadElement (elem : TypeId) : (loadElement elem).storage? = none := by
  unfold loadElement
  split <;> rfl

@[simp] theorem storage?_storeElement (elem : TypeId) : (storeElement elem).storage? = none := by
  unfold storeElement
  split <;> rfl

@[simp] theorem storage?_newArray (elem : TypeId) : (newArray elem).storage? = none := rfl

/-- Decoding an instruction gives back what its item does with storage. -/
theorem storage?_instruction (adr : Nat) (i : Item) (fits : ∀ s ∈ i.storage?, s.Fits) :
    (i.instruction adr).storage? = i.storage? := by
  rw [Instruction.storage?, instruction_op?, Option.bind_some]
  cases i with
  | jump when? target =>
    cases when? with
    | none => rfl
    | some relation => cases relation <;> rfl
  | call adr => rfl
  | plain op operands proper =>
    rcases op.storage?_cases operands proper.1 with ⟨s, found, readable⟩ | none
    · rw [instruction_operands_of_fits adr (.plain op operands proper) (readable (fits s found))]
      rfl
    · exact (none _).trans (none _).symm

end Item

/-- Decoding code gives back what its items do with storage. -/
theorem Items.storage_instructions {items : List Item} (adr : Nat)
    (fits : ∀ s ∈ storage items, s.Fits) :
    (instructions adr items).filterMap Instruction.storage? = storage items := by
  induction items generalizing adr with
  | nil => rfl
  | cons i items ih =>
    rw [storage_cons] at fits ⊢
    have first := i.storage?_instruction adr fun s found =>
      fits s (List.mem_append_left _ (Option.mem_toList.mpr found))
    have rest := ih (adr + i.size) fun s member => fits s (List.mem_append_right _ member)
    rw [instructions, List.filterMap_cons, first, rest]
    cases i.storage? <;> rfl

/-! ## Operands -/

/-- Where a variable or a field is stored. -/
inductive Location where
  | localVar (slot : Nat)
  | staticVar (slot : Nat)
  | field (index : Nat)

namespace Location

/-- What reading a location does. -/
def reads : Location → List Storage
  | localVar slot => [.load slot]
  | staticVar slot => [.getStatic slot]
  | field index => [.getField index]

/-- What writing to a location does. -/
def writes : Location → List Storage
  | localVar slot => [.store slot]
  | staticVar slot => [.putStatic slot]
  | field index => [.putField index]

/-- What adding to a location does. There is an instruction for local variables only. -/
def steps (amount : Int) : Location → List Storage
  | localVar slot => [.inc slot amount]
  | other => other.reads ++ other.writes

end Location

namespace Operand

/-- Whether the value of an operand is at a location, or at none that an instruction names. -/
inductive At (x : Operand) : Option Location → Prop where
  | localVar {slot : Nat} (kind : x.kind = .localVar) (adr : x.adr = slot) :
      At x (some (.localVar slot))
  | staticVar {slot : Nat} (kind : x.kind = .staticVar) (adr : x.adr = slot) :
      At x (some (.staticVar slot))
  | field {index : Nat} (kind : x.kind = .field) (adr : x.adr = index) :
      At x (some (.field index))
  | other (notLocal : x.kind ≠ .localVar) (notStatic : x.kind ≠ .staticVar)
      (notField : x.kind ≠ .field) : At x none

variable {x : Operand} {location? : Option Location}

theorem At.load (located : x.At location?) :
    storage x.loadItems = location?.elim [] Location.reads := by
  cases located with
  | other => cases kind : x.kind <;> simp_all [loadItems]
  | _ kind adr => simp [loadItems, kind, adr, Location.reads, Opcode.storage?]

theorem At.store (located : x.At location?) :
    storage x.storeItems = location?.elim [] Location.writes := by
  cases located with
  | other => cases kind : x.kind <;> simp_all [storeItems]
  | _ kind adr => simp [storeItems, kind, adr, Location.writes, Opcode.storage?]

@[simp] theorem storage_keepItems (x : Operand) : storage x.keepItems = [] := by
  unfold keepItems
  cases x.kind <;> rfl

theorem At.step (located : x.At location?) (up : Bool) :
    storage (x.stepItems up) =
      location?.elim [] (Location.steps (if up then 1 else -1)) := by
  have amount : storage
      [if up then .plain .const1 [] ⟨rfl, rfl⟩ else .plain .constM1 [] ⟨rfl, rfl⟩,
        .plain .add [] ⟨rfl, rfl⟩] = [] := by cases up <;> rfl
  have load := located.load
  have store := located.store
  cases located with
  | localVar kind adr => simp [stepItems, kind, adr, Location.steps, Opcode.storage?]
  | staticVar kind adr | field kind adr =>
    simp only [stepItems, kind, storage_append, load, store, amount, storage_keepItems]
    rfl
  | other notLocal notStatic notField =>
    cases kind : x.kind with
    | element =>
      simp only [stepItems, kind, storage_append, load, store, amount, storage_keepItems]
      rfl
    | localVar => exact absurd kind notLocal
    | staticVar => exact absurd kind notStatic
    | field => exact absurd kind notField
    | _ => simp [stepItems, kind]

end Operand

end MicroJava

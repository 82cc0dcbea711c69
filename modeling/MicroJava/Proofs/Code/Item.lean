import MicroJava.Code.Operand

/-! # Code as a list of items

An item is one instruction as the compiler means it: a jump names the address or the label it leads
to, not an offset. `CodeBuffer.assemble` adds items to a buffer, and every change that compiling
makes to a buffer is of this form. Addresses are sums of the sizes of the items before.
-/

namespace MicroJava

open List

/-- The places of a statement that jumps can name before their address is known. -/
inductive OpenLabel where
  /-- Where a condition holds. -/
  | holds
  /-- Where a condition fails. -/
  | fails
  /-- Behind both branches of a conditional statement. -/
  | finish
  /-- Behind the innermost loop. -/
  | exit
deriving DecidableEq, Repr

/-- Where a jump leads. -/
inductive Destination where
  | address (adr : Nat)
  /-- Not known yet. -/
  | waiting (label : OpenLabel)
deriving DecidableEq, Repr

/-- An instruction whose target, if it has one, is not encoded yet. -/
inductive Item where
  /-- An instruction that names no address, with all its operands. -/
  | plain (op : Opcode) (operands : List Int)
      (proper : operands.length = op.widths.length ∧ op.isTransfer = false)
  /-- A jump, taken always or when a comparison holds. -/
  | jump (when? : Option Comparison) (target : Destination)
  /-- A call of the method at an address. -/
  | call (adr : Int)
deriving DecidableEq

namespace Item

/-- The instruction of a jump. -/
def jumpOp : Option Comparison → Opcode
  | none => .jmp
  | some comparison => comparison.jump

/-- The operation of an item. -/
def opcode : Item → Opcode
  | plain op _ _ => op
  | jump when? _ => jumpOp when?
  | call _ => .call

/-- The number of bytes of an item. -/
def size (i : Item) : Nat := i.opcode.size

/-- The distance that an item at `adr` stores, if it names an address. -/
def offset? (adr : Nat) : Item → Option Int
  | plain _ _ _ => none
  | jump _ (.address target) => some (CodeBuffer.offset target (adr + 3))
  | jump _ (.waiting _) => none
  | call target => some (target - (adr + 3 : Nat))

/-- The operands of an item at `adr`. A slot that waits for a label holds zero. -/
def operands (adr : Nat) : Item → List Int
  | plain _ operands _ => operands
  | i => [(i.offset? adr).getD 0]

/-- The operand bytes of an item at `adr`. -/
def operandBytes (adr : Nat) (i : Item) : List UInt8 :=
  ((i.opcode.widths.zip (i.operands adr)).map fun (width, x) => width.encode x).flatten

/-- The bytes of an item at `adr`. -/
def bytes (adr : Nat) (i : Item) : List UInt8 := i.opcode.code :: i.operandBytes adr

/-- Whether an item at `adr` stores a distance that does not fit. -/
def isFar (adr : Nat) (i : Item) : Bool := (i.offset? adr).any fun offset => !CodeBuffer.fits offset

/-- Whether an item waits for a label. -/
def waitsFor (label : OpenLabel) : Item → Bool
  | jump _ (.waiting other) => label == other
  | _ => false

/-- Whether an item is a jump. -/
def isJump : Item → Bool
  | jump _ _ => true
  | _ => false

theorem jumpOp_widths (when? : Option Comparison) : (jumpOp when?).widths = [.short] := by
  cases when? with
  | none => rfl
  | some comparison => cases comparison <;> rfl

theorem jumpOp_isTransfer (when? : Option Comparison) : (jumpOp when?).isTransfer = true := by
  cases when? with
  | none => rfl
  | some comparison => cases comparison <;> rfl

@[simp] theorem size_jump (when? : Option Comparison) (target : Destination) :
    (jump when? target).size = 3 := by
  simp [size, opcode, Opcode.size, Opcode.operandBytes, jumpOp_widths, Width.bytes]

@[simp] theorem size_call (adr : Int) : (call adr).size = 3 := rfl

theorem size_pos (i : Item) : 0 < i.size := by
  simp only [size, Opcode.size]
  omega

theorem length_operands (adr : Nat) (i : Item) :
    (i.operands adr).length = i.opcode.widths.length := by
  cases i with
  | plain op operands proper => exact proper.1
  | jump when? target => simp [operands, opcode, jumpOp_widths]
  | call target => rfl

end Item

theorem toNat_lowByte (x : Int) : ((lowByte x).toNat : Int) = x % 256 := by
  simp only [lowByte, UInt8.toNat_ofNat']
  omega

theorem Width.length_encode (width : Width) (x : Int) : (width.encode x).length = width.bytes := by
  cases width <;> rfl

/-- Operands take up as many bytes as their widths say. -/
theorem Width.length_flatten_encode {widths : List Width} {operands : List Int}
    (same : operands.length = widths.length) :
    ((widths.zip operands).map fun (width, x) => width.encode x).flatten.length =
      widths.foldr (·.bytes + ·) 0 := by
  induction widths generalizing operands with
  | nil => rfl
  | cons width widths ih =>
    cases operands with
    | nil => simp at same
    | cons x operands =>
      have rest := ih (Nat.succ.inj same)
      simp only [zip_cons_cons, map_cons, flatten_cons, length_append,
        foldr_cons, Width.length_encode, rest]

theorem Item.length_operandBytes (adr : Nat) (i : Item) :
    (i.operandBytes adr).length = i.opcode.operandBytes :=
  Width.length_flatten_encode (i.length_operands adr)

theorem Item.length_bytes (adr : Nat) (i : Item) : (i.bytes adr).length = i.size := by
  simp only [Item.bytes, length_cons, Item.length_operandBytes, Item.size, Opcode.size]
  omega

/-! ## Lists of items -/

namespace Items

/-- The number of bytes of a list of items. -/
def size (items : List Item) : Nat := items.foldr (·.size + ·) 0

@[simp] theorem size_nil : size [] = 0 := rfl

@[simp] theorem size_cons (i : Item) (items : List Item) :
    size (i :: items) = i.size + size items :=
  rfl

@[simp] theorem size_append (front back : List Item) :
    size (front ++ back) = size front + size back := by
  induction front with
  | nil => simp
  | cons i front ih => simp [ih, Nat.add_assoc]

/-- The bytes of items from `adr` on. -/
def bytes : (adr : Nat) → List Item → List UInt8
  | _, [] => []
  | adr, i :: items => i.bytes adr ++ bytes (adr + i.size) items

theorem length_bytes (adr : Nat) (items : List Item) : (bytes adr items).length = size items := by
  induction items generalizing adr with
  | nil => rfl
  | cons i items ih => simp [bytes, Item.length_bytes, ih]

theorem bytes_append (adr : Nat) (front back : List Item) :
    bytes adr (front ++ back) = bytes adr front ++ bytes (adr + size front) back := by
  induction front generalizing adr with
  | nil => rfl
  | cons i front ih => simp [bytes, ih, Nat.add_assoc]

/-- How many items from `adr` on store a distance that does not fit. -/
def farCount : (adr : Nat) → List Item → Nat
  | _, [] => 0
  | adr, i :: items => (if i.isFar adr then 1 else 0) + farCount (adr + i.size) items

theorem farCount_append (adr : Nat) (front back : List Item) :
    farCount adr (front ++ back) = farCount adr front + farCount (adr + size front) back := by
  induction front generalizing adr with
  | nil => simp [farCount]
  | cons i front ih => simp [farCount, ih, Nat.add_assoc]

/-- The slots that wait for a label, the last one first. -/
def slots (label : OpenLabel) : (adr : Nat) → List Item → List Nat
  | _, [] => []
  | adr, i :: items =>
    slots label (adr + i.size) items ++ if i.waitsFor label then [adr + 1] else []

@[simp] theorem slots_nil (label : OpenLabel) (adr : Nat) : slots label adr [] = [] := rfl

theorem slots_append (label : OpenLabel) (adr : Nat) (front back : List Item) :
    slots label adr (front ++ back) =
      slots label (adr + size front) back ++ slots label adr front := by
  induction front generalizing adr with
  | nil => simp
  | cons i front ih => simp [slots, ih, Nat.add_assoc]

theorem slots_eq_nil {label : OpenLabel} {items : List Item}
    (none : ∀ i ∈ items, i.waitsFor label = false) (adr : Nat) : slots label adr items = [] := by
  induction items generalizing adr with
  | nil => rfl
  | cons i items ih =>
    rw [slots, ih (fun other member => none other (mem_cons_of_mem _ member)),
      none i mem_cons_self]
    rfl

end Items

/-! ## Assembling -/

namespace CodeBuffer

@[simp] theorem pc_put (c : CodeBuffer) (op : Opcode) : (c.put op).pc = c.pc + 1 := by
  simp [put, pc]

theorem toList_append (c : CodeBuffer) (bytes : List UInt8) :
    (c.append bytes).bytes.toList = c.bytes.toList ++ bytes := by
  simp [append]

/-- Adds an item at the end. -/
def add (c : CodeBuffer) : Item → CodeBuffer
  | .plain op operands _ => c.emit op operands
  | .jump when? (.address adr) => (c.put (Item.jumpOp when?)).putOffset (offset adr (c.pc + 3))
  | .jump when? (.waiting _) => (c.put (Item.jumpOp when?)).reserve
  | .call adr => (c.put .call).putOffset (adr - (c.pc + 3 : Nat))

/-- Adds items at the end. -/
def assemble (c : CodeBuffer) (items : List Item) : CodeBuffer := items.foldl add c

section

variable (c : CodeBuffer)

include c

@[simp] theorem assemble_nil : c.assemble [] = c := rfl

@[simp] theorem assemble_cons (i : Item) (items : List Item) :
    c.assemble (i :: items) = (c.add i).assemble items := rfl

theorem assemble_append (front back : List Item) :
    c.assemble (front ++ back) = (c.assemble front).assemble back := foldl_append

theorem noteOffset_bytes (offset : Int) : (c.noteOffset offset).bytes = c.bytes := by
  unfold noteOffset
  split <;> rfl

theorem toList_add (i : Item) : (c.add i).bytes.toList = c.bytes.toList ++ i.bytes c.pc := by
  cases i with
  | plain op operands proper => exact toList_append c _
  | jump when? target =>
    cases target <;>
      simp [add, putOffset, reserve, putNumber, append, noteOffset_bytes, put, Item.bytes,
        Item.operandBytes, Item.opcode, Item.jumpOp_widths, Item.operands, Item.offset?]
  | call target =>
    simp [add, putOffset, putNumber, append, noteOffset_bytes, put, Item.bytes,
      Item.operandBytes, Item.opcode, Opcode.widths, Item.operands, Item.offset?]

@[simp] theorem pc_add (i : Item) : (c.add i).pc = c.pc + i.size := by
  have bytes := congrArg length (toList_add c i)
  simpa [pc, Item.length_bytes] using bytes

@[simp] theorem pc_assemble (items : List Item) :
    (c.assemble items).pc = c.pc + Items.size items := by
  induction items generalizing c with
  | nil => rfl
  | cons i items ih => simp [ih, Nat.add_assoc]

theorem toList_assemble (items : List Item) :
    (c.assemble items).bytes.toList = c.bytes.toList ++ Items.bytes c.pc items := by
  induction items generalizing c with
  | nil => simp [Items.bytes]
  | cons i items ih => simp [ih, toList_add, Items.bytes]

theorem farOffsets_add (i : Item) :
    (c.add i).farOffsets = c.farOffsets + if i.isFar c.pc then 1 else 0 := by
  cases i with
  | plain op operands proper => rfl
  | jump when? target =>
    cases target with
    | address adr =>
      simp only [add, putOffset, putNumber, append, noteOffset, Item.isFar, Item.offset?,
        Option.any_some]
      split <;> simp_all [put]
    | waiting label => rfl
  | call target =>
    simp only [add, putOffset, putNumber, append, noteOffset, Item.isFar, Item.offset?,
      Option.any_some]
    split <;> simp_all [put]

theorem farOffsets_assemble (items : List Item) :
    (c.assemble items).farOffsets = c.farOffsets + Items.farCount c.pc items := by
  induction items generalizing c with
  | nil => rfl
  | cons i items ih => simp [ih, farOffsets_add, Items.farCount, Nat.add_assoc]

/-- Items change only the bytes of a buffer and the count of far offsets. -/
theorem add_frame (i : Item) : (c.add i).entry = c.entry ∧ (c.add i).dataSize = c.dataSize := by
  cases i with
  | plain op operands proper => exact ⟨rfl, rfl⟩
  | jump when? target =>
    cases target with
    | address adr =>
      simp only [add, putOffset, putNumber, append, noteOffset]
      split <;> exact ⟨rfl, rfl⟩
    | waiting label => exact ⟨rfl, rfl⟩
  | call target =>
    simp only [add, putOffset, putNumber, append, noteOffset]
    split <;> exact ⟨rfl, rfl⟩

theorem assemble_frame (items : List Item) :
    (c.assemble items).entry = c.entry ∧ (c.assemble items).dataSize = c.dataSize := by
  induction items generalizing c with
  | nil => exact ⟨rfl, rfl⟩
  | cons i items ih =>
    obtain ⟨entry, dataSize⟩ := ih (c.add i)
    exact ⟨entry.trans (c.add_frame i).1, dataSize.trans (c.add_frame i).2⟩

end

end CodeBuffer

end MicroJava

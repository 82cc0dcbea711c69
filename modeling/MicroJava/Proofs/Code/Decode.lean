import MicroJava.Proofs.Code.Partition
import MicroJava.Proofs.Code.Resolve

/-! # Decoding assembled code

Decoding the bytes of a list of items gives one complete instruction for each item, at the address
of the item. Operands that fit their width read back as the numbers that were meant, and so do the
targets of jumps and calls whose distance fits two bytes.
-/

namespace MicroJava

open List Nat CodeBuffer

variable {items : List Item} {code : List Instruction}

/-! ## Numbers -/

/-- Reading a number back keeps it up to what its width can hold. -/
theorem signedValue_encode (width : Width) (x : Int) :
    signedValue (width.encode x) = Int.bmod x (Nat.pow 256 width.bytes) := by
  rw [← Int.emod_bmod, signedValue, Width.length_encode]
  congr 1
  cases width with
  | byte =>
    simp only [Width.encode, foldl_cons, foldl_nil, toNat_lowByte, Width.bytes, pow_eq]
    omega
  | short =>
    simp only [Width.encode, foldl_cons, foldl_nil, toNat_lowByte, Width.bytes, pow_eq]
    omega
  | word =>
    simp only [Width.encode, foldl_cons, foldl_nil, toNat_lowByte, Width.bytes, pow_eq]
    omega

/-- Whether a number can be stored in a width with its sign. -/
def Width.Fits (width : Width) (x : Int) : Prop :=
  -(Nat.pow 256 width.bytes : Nat) ≤ x * 2 ∧ x * 2 < (Nat.pow 256 width.bytes : Nat)

theorem Width.Fits.bmod {width : Width} {x : Int} (fit : width.Fits x) :
    Int.bmod x (Nat.pow 256 width.bytes) = x := Int.bmod_eq_of_le_mul_two fit.1 fit.2

theorem CodeBuffer.fits_iff (offset : Int) :
    fits offset = true ↔ Width.short.Fits offset := by
  simp only [fits, Width.Fits, Width.bytes, pow_eq, Bool.and_eq_true, decide_eq_true_eq]
  omega

private theorem readOperands_encode {widths : List Width} {operands : List Int}
    (same : operands.length = widths.length) :
    Instruction.readOperands widths
        ((widths.zip operands).map fun (width, x) => width.encode x).flatten =
      (widths.zip operands).map fun (width, x) => Int.bmod x (Nat.pow 256 width.bytes) := by
  induction widths generalizing operands with
  | nil => rfl
  | cons width widths ih =>
    cases operands with
    | nil => simp at same
    | cons x operands =>
      have rest := ih (Nat.succ.inj same)
      simp only [zip_cons_cons, map_cons, flatten_cons, Instruction.readOperands,
        ← Width.length_encode width x, take_left, drop_left, rest, signedValue_encode]

/-! ## Instructions -/

/-- The instruction that an item at `adr` is encoded as. -/
def Item.instruction (adr : Nat) (i : Item) : Instruction :=
  ⟨adr, i.opcode.code, i.operandBytes adr⟩

namespace Item

variable (adr : Nat) (i : Item)

@[simp] theorem instruction_op? : (i.instruction adr).op? = some i.opcode :=
  Opcode.ofByte?_code i.opcode

@[simp] theorem instruction_addr : (i.instruction adr).addr = adr := rfl

@[simp] theorem instruction_length : (i.instruction adr).length = i.size := by
  simp [instruction, Instruction.length, length_operandBytes, size, Opcode.size]

@[simp] theorem instruction_isComplete : (i.instruction adr).isComplete = true := by
  simp [Instruction.isComplete, size]

theorem instruction_operands : (i.instruction adr).operands =
    (i.opcode.widths.zip (i.operands adr)).map
      fun (width, x) => Int.bmod x (Nat.pow 256 width.bytes) := by
  simp only [Instruction.operands, instruction_op?, instruction_isComplete, ↓reduceIte]
  exact readOperands_encode (i.length_operands adr)

/-- Operands that fit their widths read back. -/
theorem instruction_operands_of_fits
    (fit : ∀ pair ∈ i.opcode.widths.zip (i.operands adr), pair.1.Fits pair.2) :
    (i.instruction adr).operands = i.operands adr := by
  rw [instruction_operands]
  have same : (i.opcode.widths.zip (i.operands adr)).map Prod.snd = i.operands adr := by
    exact map_snd_zip (Nat.le_of_eq (i.length_operands adr))
  refine Eq.trans (map_congr_left fun pair member => ?_) same
  exact (fit pair member).bmod

/-- The address that an item names. -/
def target? : Item → Option Int
  | jump _ (.address target) => some target
  | call target => some target
  | _ => none

/-- An offset that fits reads back. -/
theorem instruction_operands_of_offset {adr : Nat} {i : Item} {offset : Int}
    (stores : i.offset? adr = some offset) (near : fits offset = true) :
    (i.instruction adr).operands = [offset] := by
  have operands : i.operands adr = [offset] ∧ i.opcode.widths = [.short] := by
    cases i with
    | plain op operands proper => cases stores
    | jump when? target => exact ⟨by simp [operands, stores], jumpOp_widths when?⟩
    | call target => exact ⟨by simp [operands, stores], rfl⟩
  rw [instruction_operands_of_fits, operands.1]
  simpa [operands] using (fits_iff offset).mp near

theorem offset?_of_target? {adr : Nat} {i : Item} {target : Int}
    (names : i.target? = some target) :
    i.offset? adr = some (target - (adr + 3 : Nat)) := by
  cases i with
  | plain op operands proper => cases names
  | jump when? destination =>
    cases destination with
    | address other =>
      cases names
      rfl
    | waiting label => cases names
  | call other =>
    cases names
    rfl

/-- A jump or call whose distance fits leads to the address that it names. -/
theorem instruction_target? {target : Nat} (names : i.target? = some (target : Int))
    (near : i.isFar adr = false) : (i.instruction adr).target? = some target := by
  have kind : i.opcode.isTransfer = true ∧ i.size = 3 := by
    cases i with
    | plain op operands proper => cases names
    | jump when? target => exact ⟨jumpOp_isTransfer when?, size_jump ..⟩
    | call adr => exact ⟨rfl, rfl⟩
  have offset : i.offset? adr = _ := offset?_of_target? names
  have read : (i.instruction adr).operands = [(target : Int) - (adr + 3 : Nat)] :=
    instruction_operands_of_offset offset (by simpa [isFar, offset] using near)
  have sum : ((adr + 3 : Nat) : Int) + ((target : Int) - (adr + 3 : Nat)) = target := by omega
  have natural : ¬ (target : Int) < 0 := by omega
  simp only [Instruction.target?, instruction_op?, Option.bind_eq_bind, Option.bind_some, kind,
    Bool.not_true, Bool.false_eq_true, ↓reduceIte, read, head?_cons, instruction_addr,
    instruction_length, sum, natural, Int.toNat_natCast]

end Item

/-- Whether instructions stand at increasing addresses. -/
abbrev Increasing (code : List Instruction) : Prop := code.Pairwise (·.addr < ·.addr)

/-- Of instructions at increasing addresses, no two stand at the same. -/
theorem Instruction.addr_injOn (increasing : Increasing code) {i j : Instruction}
    (left : i ∈ code) (right : j ∈ code) (same : i.addr = j.addr) : i = j := by
  induction increasing with
  | nil => cases left
  | cons later _ ih =>
    rcases mem_cons.mp left with first | behind
    · rcases mem_cons.mp right with first' | behind'
      · exact first.trans first'.symm
      · exact absurd (first ▸ same) (Nat.ne_of_lt (later j behind'))
    · rcases mem_cons.mp right with first' | behind'
      · exact absurd (first' ▸ same.symm) (Nat.ne_of_lt (later i behind))
      · exact ih behind behind'

namespace Items

variable {adr : Nat} {i : Item} {front back : List Item}

/-- The instructions that items from `adr` on are encoded as. -/
def instructions : (adr : Nat) → List Item → List Instruction
  | _, [] => []
  | adr, i :: items => i.instruction adr :: instructions (adr + i.size) items

theorem instructions_append (adr : Nat) (front back : List Item) :
    instructions adr (front ++ back) = instructions adr front ++ instructions (adr + size front) back := by
  induction front generalizing adr with
  | nil => rfl
  | cons i front ih => simp [instructions, ih, Nat.add_assoc]

theorem mem_instructions {instruction : Instruction}
    (member : instruction ∈ instructions adr items) :
    ∃ front i back, items = front ++ i :: back ∧
      instruction = i.instruction (adr + size front) := by
  induction items generalizing adr with
  | nil => cases member
  | cons i items ih =>
    rcases mem_cons.mp member with rfl | member
    · exact ⟨[], i, items, rfl, rfl⟩
    · obtain ⟨front, other, back, rfl, same⟩ := ih member
      exact ⟨i :: front, other, back, rfl, by simp [same, Nat.add_assoc]⟩

theorem farCount_append_eq_zero :
    farCount adr (front ++ back) = 0 ↔
      farCount adr front = 0 ∧ farCount (adr + size front) back = 0 := by
  rw [farCount_append, Nat.add_eq_zero_iff]

theorem farCount_cons_eq_zero :
    farCount adr (i :: items) = 0 ↔ i.isFar adr = false ∧ farCount (adr + i.size) items = 0 := by
  cases far : i.isFar adr <;> simp [farCount, far]

/-- No item stores a distance that does not fit if none is counted. -/
theorem isFar_of_farCount (none : farCount adr (front ++ i :: back) = 0) :
    i.isFar (adr + size front) = false :=
  (farCount_cons_eq_zero.mp (farCount_append_eq_zero.mp none).2).1

private theorem addr_instructions {instruction : Instruction}
    (member : instruction ∈ instructions adr items) : adr ≤ instruction.addr := by
  obtain ⟨front, i, back, _, rfl⟩ := mem_instructions member
  exact le_add_right adr _

/-- Instructions stand at increasing addresses. -/
theorem pairwise_instructions (adr : Nat) (items : List Item) :
    Increasing (instructions adr items) := by
  induction items generalizing adr with
  | nil => exact .nil
  | cons i items ih =>
    refine .cons (fun other member => ?_) (ih _)
    have := addr_instructions member
    have := i.size_pos
    rw [Item.instruction_addr]
    omega

/-- Whether code has the instructions of items at an address. -/
def At (code : List Instruction) (adr : Nat) (items : List Item) : Prop :=
  ∃ front back, code = front ++ instructions adr items ++ back

theorem At.left (located : At code adr (front ++ back)) : At code adr front := by
  obtain ⟨before, behind, rfl⟩ := located
  exact ⟨before, instructions (adr + size front) back ++ behind, by simp [instructions_append]⟩

theorem At.right (located : At code adr (front ++ back)) : At code (adr + size front) back := by
  obtain ⟨before, behind, rfl⟩ := located
  exact ⟨before ++ instructions adr front, behind, by simp [instructions_append]⟩

theorem At.tail (located : At code adr (i :: items)) : At code (adr + i.size) items := by
  obtain ⟨before, behind, rfl⟩ := located
  exact ⟨before ++ [i.instruction adr], behind, by simp [instructions]⟩

/-- Items stand behind those that are assembled before them. -/
theorem at_flatten (adr : Nat) (front : List (List Item)) (items : List Item)
    (back : List (List Item)) :
    At (instructions adr (front ++ items :: back).flatten) (adr + size front.flatten) items :=
  ⟨instructions adr front.flatten,
    instructions (adr + size front.flatten + size items) back.flatten, by simp [instructions_append]⟩

/-- The instruction at an address is that of the item there. -/
theorem At.find? (located : At code adr (i :: items))
    (increasing : Increasing code) :
    code.find? (·.addr == adr) = some (i.instruction adr) := by
  refine find?_eq_some_iff_append.mpr ⟨by simp, ?_⟩
  obtain ⟨before, behind, rfl⟩ := located
  refine ⟨before, instructions (adr + i.size) items ++ behind, by simp [instructions], ?_⟩
  intro other member
  rw [append_assoc] at increasing
  have earlier := (pairwise_append.mp increasing).2.2 other member (i.instruction adr)
    (by simp [instructions])
  rw [Item.instruction_addr] at earlier
  simpa using Nat.ne_of_lt earlier

theorem At.mem (located : At code adr (i :: items)) : i.instruction adr ∈ code := by
  obtain ⟨before, behind, rfl⟩ := located
  simp [instructions]

private theorem shift_decode_bytes (adr : Nat) (items : List Item) :
    (Instruction.decode (bytes adr items)).map (.shift adr) = instructions adr items := by
  induction items generalizing adr with
  | nil => rfl
  | cons i items ih =>
    have count : Instruction.operandCount i.opcode.code = (i.operandBytes adr).length := by
      simp [Instruction.operandCount, Opcode.ofByte?_code, Item.length_operandBytes]
    have size : 1 + (i.operandBytes adr).length = i.size := i.instruction_length adr
    rw [instructions, ← ih, bytes, Item.bytes, cons_append, Instruction.decode_cons]
    simp [Instruction.leading, Instruction.length, Instruction.shift, Item.instruction, count, size]

/-- Decoding gives back the items that were assembled. -/
theorem decode_bytes (items : List Item) :
    Instruction.decode (bytes 0 items) = instructions 0 items := by
  simpa using shift_decode_bytes 0 items

end Items

theorem CodeBuffer.instructions_eq {c : CodeBuffer} (bytes : c.bytes.toList = Items.bytes 0 items) :
    c.instructions = Items.instructions 0 items := by
  rw [instructions, bytes, Items.decode_bytes]

end MicroJava

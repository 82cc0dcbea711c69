import MicroJava.Proofs.Code.Decode
import MicroJava.Proofs.Emission.Basic

/-! # Emitted instructions are decoded as they were meant

Decoding the code gives exactly the instructions that were asked for, each where the code ended when it
was asked for. Numbers read back because operations within their range ask only for operands that fit.
-/

namespace MicroJava

open List Item CodeBuffer Emission

/-! ## What is decoded -/

/-- The constant that an instruction pushes, in its short or its long form. -/
def Instruction.constant? (i : Instruction) : Option Int :=
  match i.op? with
  | some .constM1 => some (-1)
  | some .const0 => some 0
  | some .const1 => some 1
  | some .const2 => some 2
  | some .const3 => some 3
  | some .const4 => some 4
  | some .const5 => some 5
  | some .const => i.operands.head?
  | _ => none

/-- The address that a jump or call leads to, if it is known. -/
def Emitted.target? (labels : Nat → Label) : Emitted → Option Int
  | straight i _ => i.target?
  | jump _ label => (labels label).adr?.map Int.ofNat

/-- Whether an instruction is what was asked for. -/
structure Emitted.Decodes (labels : Nat → Label) (e : Emitted) (i : Instruction) : Prop where
  complete : i.isComplete = true
  op : i.op? = some e.opcode
  /-- Numbers read back with their signs. -/
  operands : ∀ op operands proper noJump, e = .straight (.plain op operands proper) noJump →
    i.operands = operands
  constant : ∀ value noJump, e = .straight (.const value) noJump → i.constant? = some value
  /-- A jump or call whose offset fits states that offset. -/
  offset : ∀ adr, e.target? labels = some adr → fits (adr - (i.addr + 3 : Nat)) = true →
    i.operands = [adr - (i.addr + 3 : Nat)]
  /-- It leads to the address of its label or method. -/
  target : ∀ adr : Nat, e.target? labels = some (adr : Int) →
    fits (adr - (i.addr + 3 : Nat)) = true → i.target? = some adr
  /-- A jump whose label is pending has room for an offset. -/
  pending : ∀ when? label, e = .jump when? label → (labels label).adr? = none → i.operands = [0]

/-- Whether instructions from an address on are what was asked for, one for each and without gaps. -/
inductive Emitted.Decoding (labels : Nat → Label) : Nat → List Emitted → List Instruction → Prop where
  | nil (adr : Nat) : Decoding labels adr [] []
  | cons {adr : Nat} {e : Emitted} {i : Instruction} {es : List Emitted} {is : List Instruction}
      (addr : i.addr = adr) (first : e.Decodes labels i)
      (rest : Decoding labels (adr + e.size) es is) : Decoding labels adr (e :: es) (i :: is)

/-! ## Numbers that fit -/

namespace Item

/-- Whether the numbers of an instruction that names no address fit its operands. -/
def Fits : Item → Prop
  | plain op operands _ => ∀ pair ∈ op.widths.zip operands, pair.1.Fits pair.2
  | _ => True

private theorem const_fits (value : Int32) : (const value.toInt).Fits := by
  have low := value.le_toInt
  have high := value.toInt_lt
  generalize value.toInt = value at low high
  fun_cases const value with
  | case8 => simp [Fits, Opcode.widths, Width.Fits, Width.bytes]; omega
  | _ => simp [Fits, Opcode.widths]

private theorem load_fits {slot : Int} (within : 0 ≤ slot ∧ slot ≤ 127) : (load slot).Fits := by
  fun_cases load slot with
  | case5 => simp [Fits, Opcode.widths, Width.Fits, Width.bytes]; omega
  | _ => simp [Fits, Opcode.widths]

private theorem store_fits {slot : Int} (within : 0 ≤ slot ∧ slot ≤ 127) : (store slot).Fits := by
  fun_cases store slot with
  | case5 => simp [Fits, Opcode.widths, Width.Fits, Width.bytes]; omega
  | _ => simp [Fits, Opcode.widths]

private theorem fits_of_widths {op : Opcode} {operands : List Int}
    {proper : operands.length = op.widths.length ∧ op.isTransfer = false} (alone : op.widths = []) :
    (plain op operands proper).Fits := by
  simp [Fits, alone]

private theorem fits_short {op : Opcode} {x : Int}
    {proper : [x].length = op.widths.length ∧ op.isTransfer = false} (width : op.widths = [.short])
    (near : 0 ≤ x ∧ x ≤ 32767) : (plain op [x] proper).Fits := by
  simp only [Fits, width, zip_cons_cons, zip_nil_left, forall_mem_singleton]
  simp only [Width.Fits, Width.bytes, Nat.pow_eq]
  omega

end Item

namespace Operand

variable {x : Operand}

private theorem loadItems_fit (inRange : x.InRange) : ∀ i ∈ x.loadItems, i.Fits := by
  unfold InRange at inRange
  unfold loadItems
  cases kind : x.kind with
  | con =>
    rw [forall_mem_singleton]
    exact const_fits x.value
  | localVar =>
    rw [kind] at inRange
    rw [forall_mem_singleton]
    exact load_fits inRange
  | staticVar | field =>
    rw [kind] at inRange
    rw [forall_mem_singleton]
    exact fits_short rfl inRange
  | element =>
    rw [forall_mem_singleton, loadElement]
    split <;> exact fits_of_widths rfl
  | method =>
    rw [forall_mem_singleton]
    trivial
  | stack | condition | nothing => simp

private theorem storeItems_fit (inRange : x.InRange) : ∀ i ∈ x.storeItems, i.Fits := by
  unfold InRange at inRange
  unfold storeItems
  cases kind : x.kind with
  | localVar =>
    rw [kind] at inRange
    rw [forall_mem_singleton]
    exact store_fits inRange
  | staticVar | field =>
    rw [kind] at inRange
    rw [forall_mem_singleton]
    exact fits_short rfl inRange
  | element =>
    rw [forall_mem_singleton, storeElement]
    split <;> exact fits_of_widths rfl
  | con | stack | method | condition | nothing => simp

private theorem keepItems_fit (x : Operand) : ∀ i ∈ x.keepItems, i.Fits := by
  unfold keepItems
  cases x.kind with
  | field | element =>
    rw [forall_mem_singleton]
    exact fits_of_widths rfl
  | _ => simp

private theorem stepItems_fit (inRange : x.InRange) (up : Bool) : ∀ i ∈ x.stepItems up, i.Fits := by
  have steps : ∀ i ∈ x.keepItems ++ x.loadItems ++
      [if up then .plain .const1 [] ⟨rfl, rfl⟩ else .plain .constM1 [] ⟨rfl, rfl⟩,
        .plain .add [] ⟨rfl, rfl⟩] ++ x.storeItems, i.Fits := by
    simp only [forall_mem_append, forall_mem_cons]
    refine ⟨⟨⟨x.keepItems_fit, loadItems_fit inRange⟩, ?_, ?_, by simp⟩, storeItems_fit inRange⟩
    · split <;> exact fits_of_widths rfl
    · exact fits_of_widths rfl
  unfold InRange at inRange
  unfold stepItems
  cases kind : x.kind with
  | localVar =>
    rw [kind] at inRange
    rw [forall_mem_singleton]
    simp only [Fits, Opcode.widths, zip_cons_cons, zip_nil_left, forall_mem_cons,
      Width.Fits, Width.bytes, Nat.pow_eq]
    split <;> simp <;> omega
  | staticVar | field | element => exact steps
  | con | stack | method | condition | nothing => simp

end Operand

namespace Emitted

/-- Whether the numbers of an instruction fit. -/
def Fits : Emitted → Prop
  | straight i _ => i.Fits
  | jump _ _ => True

private theorem ofItems_fit {items : List Item} (straight : Items.Straight items)
    (fit : ∀ i ∈ items, i.Fits) : ∀ e ∈ ofItems items straight, e.Fits := by
  intro e member
  obtain ⟨i, among, rfl⟩ := mem_pmap.mp member
  exact fit i among

end Emitted

/-- What an operation within its range asks for fits. -/
theorem Emission.emitted_fit {e : Emission} (inRange : e.InRange) : ∀ x ∈ e.emitted, x.Fits := by
  cases e with
  | load x =>
    rw [emitted]
    split
    · simp
    · exact Emitted.ofItems_fit _ (Operand.loadItems_fit inRange)
  | loadConst value =>
    rw [emitted, forall_mem_singleton]
    exact const_fits value
  | assign x y =>
    apply Emitted.ofItems_fit
    rw [forall_mem_append]
    exact ⟨Operand.loadItems_fit inRange.2, Operand.storeItems_fit inRange.1⟩
  | step x up => exact Emitted.ofItems_fit _ (Operand.stepItems_fit inRange up)
  | call x =>
    rw [emitted, forall_mem_singleton]
    trivial
  | enter parameterCount varCount =>
    obtain ⟨few, few'⟩ := inRange
    rw [emitted, forall_mem_singleton]
    simp only [Emitted.Fits, Fits, Opcode.widths, zip_cons_cons, zip_nil_left,
      forall_mem_cons, Width.Fits, Width.bytes, Nat.pow_eq]
    simp
    omega
  | finish type =>
    apply Emitted.ofItems_fit
    unfold finishItems
    split
    · simp [Fits, Opcode.widths]
    · simp [Fits, Opcode.widths, Width.Fits, Width.bytes]
  | put op alone =>
    rw [emitted, forall_mem_singleton]
    simp [Emitted.Fits, Fits, alone]
  | jump label =>
    rw [emitted, forall_mem_singleton]
    trivial
  | jumpIfTrue comparison onTrue onFalse => cases comparison <;> simp [emitted, Emitted.Fits]
  | jumpIfFalse comparison onTrue onFalse => cases comparison <;> simp [emitted, Emitted.Fits]
  | here label => simp [emitted]

/-! ## Decoding what was asked for -/

namespace Item

variable {adr : Nat}

/-- The constant that was to be pushed, from the short or the long form. -/
theorem instruction_const_constant? {value : Int} (fits : (const value).Fits) :
    ((const value).instruction adr).constant? = some value := by
  have long {op : Opcode} {operands : List Int}
      {proper : operands.length = op.widths.length ∧ op.isTransfer = false}
      (fits : (plain op operands proper).Fits) :
      ((plain op operands proper).instruction adr).operands = operands :=
    instruction_operands_of_fits _ _ fits
  revert fits
  fun_cases const value with
  | case8 =>
    intro fits
    simp [Instruction.constant?, opcode, long fits]
  | _ =>
    intro _
    simp [Instruction.constant?, opcode]

end Item

namespace Emitted

variable {labels : Nat → Label} {es : List Emitted} {adr : Nat}

/-- An instruction with every label where it lies. -/
def placed (labels : Nat → Label) (e : Emitted) : Item := e.item fun label => (labels label).destination

private theorem size_placed (e : Emitted) : (e.placed labels).size = e.size := e.size_item

private theorem opcode_placed (e : Emitted) : (e.placed labels).opcode = e.opcode := by
  cases e <;> rfl

private theorem target?_placed (e : Emitted) : (e.placed labels).target? = e.target? labels := by
  cases e with
  | straight i noJump => rfl
  | jump when? label =>
    simp only [placed, item, target?]
    cases labels label <;> rfl

private theorem decodes_placed {e : Emitted} (fits : e.Fits) :
    e.Decodes labels ((e.placed labels).instruction adr) where
  complete := Item.instruction_isComplete ..
  op := by rw [Item.instruction_op?, opcode_placed]
  operands := by
    rintro op operands proper noJump rfl
    exact Item.instruction_operands_of_fits _ _ fits
  constant := by
    rintro value noJump rfl
    exact Item.instruction_const_constant? fits
  offset target names near := by
    rw [← target?_placed] at names
    exact Item.instruction_operands_of_offset (Item.offset?_of_target? names) near
  target target names near := by
    rw [← target?_placed] at names
    apply Item.instruction_target? _ _ names
    rw [Item.instruction_addr] at near
    rw [Item.isFar, Item.offset?_of_target? names, Option.any_some, near]
    rfl
  pending := by
    rintro when? label rfl waiting
    cases place : labels label with
    | resolved adr =>
      rw [place] at waiting
      cases waiting
    | pending slots =>
      rw [placed, item, place]
      apply Item.instruction_operands_of_fits
      simp [Item.opcode, Item.jumpOp_widths, Item.operands, Item.offset?, Label.destination, Width.Fits,
        Width.bytes]

/-- Decoding gives an instruction for each one that was asked for. -/
theorem decoding_placed (fit : ∀ e ∈ es, e.Fits) :
    Decoding labels adr es (Items.instructions adr (es.map (placed labels))) := by
  induction es generalizing adr with
  | nil => exact .nil adr
  | cons e es ih =>
    obtain ⟨first, others⟩ := forall_mem_cons.mp fit
    rw [map_cons, Items.instructions, size_placed]
    exact .cons rfl (decodes_placed first) (ih others)

theorem Describes.decoding {s : Assembly} (describes : Describes es s) (fit : ∀ e ∈ es, e.Fits) :
    Decoding s.labels 0 es s.code.instructions := by
  have bytes : s.code.bytes.toList = Items.bytes 0 (es.map (placed s.labels)) := by
    rw [describes.code, toList_assemble]
    rfl
  rw [instructions_eq bytes]
  exact decoding_placed fit

end Emitted

/-- Decoding agrees with emission, whatever operations come in whatever order, as long as their numbers
are within range and no label is resolved twice. There is one complete instruction for each one that
was asked for, where the code ended at that time, with its opcode and its signed operands. A constant
is recovered from its short or its long form. A jump or call whose offset fits leads to the address of
its label or method, and a label is where the code ended when it was resolved. -/
theorem Assembly.performAll_decodes {ops : List Emission} (inRange : ∀ e ∈ ops, e.InRange)
    (once : (ops.filterMap resolved?).Nodup) :
    ∃ s, Assembly.start.performAll ops = .ok s ∧
      Emitted.Decoding s.labels 0 (ops.flatMap emitted) s.code.instructions ∧
      ∀ front back, ops = front ++ back → ∃ s₀, Assembly.start.performAll front = .ok s₀ ∧
        s₀.code.pc = Emitted.sizes (front.flatMap emitted) ∧
        ∀ label rest, back = .here label :: rest → (s.labels label).adr? = some s₀.code.pc := by
  obtain ⟨s, run, describes, _⟩ :=
    performAll_describes Emitted.describes_start once fun _ _ => rfl
  refine ⟨s, run, ?_, ?_⟩
  · apply describes.decoding
    intro e member
    obtain ⟨op, among, asked⟩ := List.mem_flatMap.mp member
    exact emitted_fit (inRange op among) e asked
  · rintro front back rfl
    rw [List.filterMap_append, List.nodup_append] at once
    obtain ⟨once₀, onceBack, apart⟩ := once
    obtain ⟨s₀, run₀, describes₀, keeps₀⟩ :=
      performAll_describes Emitted.describes_start once₀ fun _ _ => rfl
    rw [performAll_append run₀] at run
    refine ⟨s₀, run₀, describes₀.pc, ?_⟩
    rintro label rest rfl
    rw [List.filterMap_cons_some (show (here label).resolved? = some label from rfl),
      List.nodup_cons] at onceBack
    have pending (other : Nat)
        (member : other ∈ (here label :: rest).filterMap resolved?) :
        (s₀.labels other).adr? = none :=
      keeps₀ other fun before => apart other before other member rfl
    obtain ⟨s₁, run₁, describes₁, places⟩ :=
      performs_here describes₀ (pending label (by simp [resolved?]))
    obtain ⟨s', run', _, keeps⟩ := performAll_describes describes₁ onceBack.2 fun other member => by
      rw [places other, if_neg]
      · exact pending other (by simp [resolved?, member])
      · rintro ⟨⟩
        exact onceBack.1 member
    rw [performAll, run₁] at run
    have same : s' = s := Except.ok.inj (run'.symm.trans run)
    rw [← same, keeps label onceBack.1, places label]
    exact if_pos rfl

/-- A loop that is entered in the middle: two labels that cross, one that is never resolved, and
numbers at the ends of their ranges. -/
def crossingEmissions : List Emission :=
  [.enter 1 3, .loadConst (-1), .loadConst 100000, .jump 0, .here 1,
    .load { kind := .localVar, type := .int, adr := 127 }, .jumpIfFalse (some .lt) 2 0,
    .assign { kind := .staticVar, type := .int, adr := 32767 } (.number 7),
    .step { kind := .localVar, type := .int, adr := 2 } false, .here 0, .jump 1, .jump 3,
    .call { kind := .method, type := .none, adr := 0 }, .put .pop rfl, .finish .none]

theorem Assembly.performAll_decodes_crossing :
    (∀ e ∈ crossingEmissions, e.InRange) ∧
    (crossingEmissions.filterMap resolved?).Nodup ∧
    ∃ s, Assembly.start.performAll crossingEmissions = .ok s ∧
      Emitted.Decoding s.labels 0 (crossingEmissions.flatMap emitted) s.code.instructions ∧
      s.code.instructions.filterMap Instruction.target? = [28, 28, 12, 34, 0] := by
  have inRange : ∀ e ∈ crossingEmissions, e.InRange := by
    simp [crossingEmissions, InRange, Operand.InRange, Operand.number]
  have once : (crossingEmissions.filterMap resolved?).Nodup := by decide
  obtain ⟨s, run, decoding, _⟩ := Assembly.performAll_decodes inRange once
  have targets : (Assembly.start.performAll crossingEmissions).map
      (fun s => s.code.instructions.filterMap Instruction.target?) = .ok [28, 28, 12, 34, 0] := by
    decide +kernel
  rw [run] at targets
  exact ⟨inRange, once, s, run, decoding, Except.ok.inj targets⟩

end MicroJava

import MicroJava.Proofs.Code.Item

/-! # Resolving labels in assembled code

Resolving a label replaces it by an address in every item that waits for it. Filling in the slots of
the label does the same to the bytes: it gives the buffer that the resolved items assemble to.
-/

namespace MicroJava

open Items CodeBuffer List

variable {label : OpenLabel} {c : CodeBuffer}

/-- Replaces a label by an address. -/
def Destination.resolve (label : OpenLabel) (adr : Nat) : Destination → Destination
  | address target => .address target
  | waiting other => if label = other then .address adr else .waiting other

/-- Replaces a label by an address. -/
def Item.resolve (label : OpenLabel) (adr : Nat) : Item → Item
  | jump when? target => .jump when? (target.resolve label adr)
  | i => i

namespace Item

@[simp] theorem opcode_resolve (label : OpenLabel) (adr : Nat) (i : Item) :
    (i.resolve label adr).opcode = i.opcode := by
  cases i <;> rfl

@[simp] theorem size_resolve (label : OpenLabel) (adr : Nat) (i : Item) :
    (i.resolve label adr).size = i.size := by
  simp [size]

private theorem waitsFor_resolve_self (label : OpenLabel) (adr : Nat) (i : Item) :
    (i.resolve label adr).waitsFor label = false := by
  cases i with
  | plain op operands proper => rfl
  | call target => rfl
  | jump when? target =>
    cases target with
    | address target => rfl
    | waiting other =>
      by_cases same : label = other <;> simp [resolve, Destination.resolve, waitsFor, same]

private theorem waitsFor_resolve_ne {label other : OpenLabel} (different : label ≠ other)
    (adr : Nat)
    (i : Item) : (i.resolve label adr).waitsFor other = i.waitsFor other := by
  cases i with
  | plain op operands proper => rfl
  | call target => rfl
  | jump when? target =>
    cases target with
    | address target => rfl
    | waiting third =>
      by_cases same : label = third
      · subst third
        simp [resolve, Destination.resolve, waitsFor, Ne.symm different]
      · simp [resolve, Destination.resolve, waitsFor, same]

private theorem jump_of_waitsFor {i : Item} (waits : i.waitsFor label = true) :
    ∃ when?, i = .jump when? (.waiting label) := by
  cases i with
  | plain op operands proper => simp [waitsFor] at waits
  | call target => simp [waitsFor] at waits
  | jump when? target =>
    cases target with
    | address target => simp [waitsFor] at waits
    | waiting other => simp_all [waitsFor]

theorem resolve_eq_self {i : Item} (none : i.waitsFor label = false) (adr : Nat) :
    i.resolve label adr = i := by
  cases i with
  | plain op operands proper => rfl
  | call target => rfl
  | jump when? target =>
    cases target with
    | address target => rfl
    | waiting other =>
      have different : label ≠ other := by simpa [waitsFor] using none
      simp [resolve, Destination.resolve, different]

end Item

namespace Items

variable {items : List Item} {front back : List Item} {labels : List OpenLabel}

/-- Replaces a label by an address in every item. -/
def resolve (label : OpenLabel) (adr : Nat) (items : List Item) : List Item :=
  items.map (Item.resolve label adr)

@[simp] theorem resolve_nil (label : OpenLabel) (adr : Nat) : resolve label adr [] = [] := rfl

@[simp] theorem resolve_cons (label : OpenLabel) (adr : Nat) (i : Item) (items : List Item) :
    resolve label adr (i :: items) = i.resolve label adr :: resolve label adr items := rfl

@[simp] theorem resolve_append (label : OpenLabel) (adr : Nat) (front back : List Item) :
    resolve label adr (front ++ back) = resolve label adr front ++ resolve label adr back :=
  map_append

@[simp] theorem size_resolve (label : OpenLabel) (adr : Nat) (items : List Item) :
    size (resolve label adr items) = size items := by
  induction items with
  | nil => rfl
  | cons i items ih => simp [ih]

/-- Whether no item waits for a label. -/
def Without (label : OpenLabel) (items : List Item) : Prop :=
  ∀ i ∈ items, i.waitsFor label = false

theorem Without.nil (label : OpenLabel) : Without label [] := by simp [Without]

private theorem without_append :
    Without label (front ++ back) ↔ Without label front ∧ Without label back := by
  simp only [Without, mem_append]
  constructor
  · intro none
    exact ⟨fun i member => none i (.inl member), fun i member => none i (.inr member)⟩
  · rintro ⟨front, back⟩ i (member | member)
    · exact front i member
    · exact back i member

theorem without_resolve_self (label : OpenLabel) (adr : Nat) (items : List Item) :
    Without label (resolve label adr items) := by
  intro i member
  obtain ⟨other, _, rfl⟩ := mem_map.mp member
  exact other.waitsFor_resolve_self label adr

theorem without_resolve_ne {label other : OpenLabel} (different : label ≠ other) (adr : Nat)
    (items : List Item) : Without other (resolve label adr items) ↔ Without other items := by
  simp only [Without, resolve, mem_map, forall_exists_index, and_imp,
    forall_apply_eq_imp_iff₂, Item.waitsFor_resolve_ne different]

theorem resolve_eq_self (none : Without label items) (adr : Nat) :
    resolve label adr items = items := by
  refine (map_congr_left fun i member => ?_).trans (map_id items)
  exact Item.resolve_eq_self (none i member) adr

/-- Whether items contain no jumps. -/
def Straight (items : List Item) : Prop := ∀ i ∈ items, i.isJump = false

@[simp] theorem straight_nil : Straight [] := by simp [Straight]

@[simp] theorem straight_cons {i : Item} :
    Straight (i :: items) ↔ i.isJump = false ∧ Straight items := by
  simp [Straight]

@[simp] theorem straight_append : Straight (front ++ back) ↔ Straight front ∧ Straight back := by
  simp only [Straight, mem_append]
  constructor
  · intro all
    exact ⟨fun i member => all i (.inl member), fun i member => all i (.inr member)⟩
  · rintro ⟨all1, all2⟩ i (member | member)
    · exact all1 i member
    · exact all2 i member

theorem Straight.without (straight : Straight items) (label : OpenLabel) : Without label items := by
  intro i member
  have := straight i member
  cases i <;> simp_all [Item.isJump, Item.waitsFor]

/-- Whether items wait for no other labels than those given. -/
def Await (labels : List OpenLabel) (items : List Item) : Prop :=
  ∀ label, label ∉ labels → Without label items

theorem Straight.await (straight : Straight items) (labels : List OpenLabel) :
    Await labels items := fun label _ => straight.without label

@[simp] theorem await_append :
    Await labels (front ++ back) ↔ Await labels front ∧ Await labels back := by
  simp only [Await, without_append]
  constructor
  · intro await
    exact ⟨fun label other => (await label other).1, fun label other => (await label other).2⟩
  · rintro ⟨front, back⟩ label other
    exact ⟨front label other, back label other⟩

theorem await_jump (member : label ∈ labels) (when? : Option Comparison) :
    Await labels [.jump when? (.waiting label)] := by
  intro other absent i inside
  simp only [mem_singleton] at inside
  subst inside
  simp only [Item.waitsFor, beq_eq_false_iff_ne]
  rintro rfl
  exact absent member

theorem Await.mono {labels more : List OpenLabel} (await : Await labels items)
    (subset : labels ⊆ more) : Await more items :=
  fun label absent => await label fun member => absent (subset member)

theorem Await.resolve (await : Await (label :: labels) items) (adr : Nat) :
    Await labels (resolve label adr items) := by
  intro other absent
  by_cases same : label = other
  · subst same
    exact without_resolve_self label adr items
  · refine (without_resolve_ne same adr items).mpr (await other ?_)
    simp only [mem_cons, not_or]
    exact ⟨fun equal => same equal.symm, absent⟩

theorem slots_resolve_ne {label other : OpenLabel} (different : label ≠ other) (target adr : Nat)
    (items : List Item) : slots other adr (resolve label target items) = slots other adr items := by
  induction items generalizing adr with
  | nil => rfl
  | cons i items ih =>
    simp only [resolve_cons, slots, Item.size_resolve, ih, Item.waitsFor_resolve_ne different]

private theorem slots_inside {adr pos : Nat} (member : pos ∈ slots label adr items) :
    pos + 2 ≤ adr + size items := by
  induction items generalizing adr with
  | nil => cases member
  | cons i items ih =>
    simp only [slots, mem_append] at member
    simp only [size_cons]
    rcases member with later | first
    · have := ih later
      omega
    · split at first
      · next waits =>
        obtain ⟨when?, rfl⟩ := Item.jump_of_waitsFor waits
        have same : pos = adr + 1 := mem_singleton.mp first
        simp only [Item.size_jump]
        omega
      · cases first

end Items

/-! ## Filling in slots -/

namespace CodeBuffer

theorem eq_of_fields {c d : CodeBuffer} (bytes : c.bytes.toList = d.bytes.toList)
    (entry : c.entry = d.entry) (dataSize : c.dataSize = d.dataSize)
    (farOffsets : c.farOffsets = d.farOffsets) : c = d := by
  cases c
  cases d
  simp only at bytes entry dataSize farOffsets
  simp only [mk.injEq]
  exact ⟨Array.toList_inj.mp bytes, entry, dataSize, farOffsets⟩

theorem toList_patch (c : CodeBuffer) (pos : Nat) (offset : Int) :
    (c.patch pos offset).bytes.toList =
      (c.bytes.toList.set pos (lowByte (offset / 0x100))).set (pos + 1) (lowByte offset) := by
  simp [patch, overwrite, noteOffset_bytes]

theorem patch_frame (c : CodeBuffer) (pos : Nat) (offset : Int) :
    (c.patch pos offset).entry = c.entry ∧ (c.patch pos offset).dataSize = c.dataSize ∧
      (c.patch pos offset).farOffsets = c.farOffsets + if fits offset then 0 else 1 := by
  simp only [patch, noteOffset]
  split <;> simp_all

@[simp] theorem pc_patch (c : CodeBuffer) (pos : Nat) (offset : Int) :
    (c.patch pos offset).pc = c.pc := by
  have bytes := congrArg length (toList_patch c pos offset)
  simpa [pc] using bytes

/-- A slot can be filled in before or after more code is added. -/
theorem patch_add {pos : Nat} (inside : pos + 2 ≤ c.pc) (offset : Int) (i : Item) :
    (c.add i).patch pos offset = (c.patch pos offset).add i := by
  have inside : pos + 2 ≤ c.bytes.toList.length := by simpa [pc] using inside
  apply eq_of_fields
  · rw [toList_patch, toList_add, toList_add, toList_patch, pc_patch,
      set_append_left _ _ (by omega), set_append_left _ _ (by rw [length_set]; omega)]
  · rw [(patch_frame ..).1, (add_frame ..).1, (add_frame ..).1, (patch_frame ..).1]
  · rw [(patch_frame ..).2.1, (add_frame ..).2, (add_frame ..).2, (patch_frame ..).2.1]
  · rw [(patch_frame ..).2.2, farOffsets_add, farOffsets_add, (patch_frame ..).2.2, pc_patch]
    omega

private theorem patch_assemble {pos : Nat} (inside : pos + 2 ≤ c.pc) (offset : Int)
    (items : List Item) :
    (c.assemble items).patch pos offset = (c.patch pos offset).assemble items := by
  induction items generalizing c with
  | nil => rfl
  | cons i items ih =>
    have inside' : pos + 2 ≤ (c.add i).pc := by
      rw [pc_add]
      omega
    rw [assemble_cons, ih inside', patch_add inside, assemble_cons]

/-- Filling in the slot of the last jump makes it lead to an address. -/
theorem patch_add_waiting (c : CodeBuffer) (when? : Option Comparison) (label : OpenLabel)
    (adr : Nat) :
    (c.add (.jump when? (.waiting label))).patch (c.pc + 1) (offset adr (c.pc + 3)) =
      c.add (.jump when? (.address adr)) := by
  have length : c.pc = c.bytes.toList.length := by simp [pc]
  apply eq_of_fields
  · rw [toList_patch, toList_add, toList_add, length]
    simp [Item.bytes, Item.operandBytes, Item.opcode, Item.jumpOp_widths, Item.operands,
      Item.offset?, Width.encode, set_append_right, Nat.add_assoc]
  · rw [(patch_frame ..).1, (add_frame ..).1, (add_frame ..).1]
  · rw [(patch_frame ..).2.1, (add_frame ..).2, (add_frame ..).2]
  · rw [(patch_frame ..).2.2, farOffsets_add, farOffsets_add]
    simp only [Item.isFar, Item.offset?, Option.any_none, Option.any_some, Bool.false_eq_true,
      ↓reduceIte]
    by_cases fit : fits (offset adr (c.pc + 3)) = true <;> simp [fit]

end CodeBuffer

namespace Label

private theorem patchAll_append (adr : Nat) (front back : List Nat) (c : CodeBuffer) :
    patchAll adr (front ++ back) c = (patchAll adr front c).bind (patchAll adr back) := by
  induction front generalizing c with
  | nil => rfl
  | cons pos front ih =>
    rw [cons_append, patchAll, patchAll]
    split
    · exact ih _
    · rfl

/-- Filling in the slots of a label resolves it in the items that were assembled. -/
theorem patchAll_slots (label : OpenLabel) (adr : Nat) (c : CodeBuffer) (items : List Item) :
    patchAll adr (slots label c.pc items) (c.assemble items) =
      .ok (c.assemble (resolve label adr items)) := by
  induction items generalizing c with
  | nil => rfl
  | cons i items ih =>
    have later := ih (c.add i)
    rw [pc_add] at later
    rw [slots, patchAll_append, assemble_cons, later, resolve_cons, assemble_cons]
    cases waits : i.waitsFor label with
    | false => rw [Item.resolve_eq_self waits]; rfl
    | true =>
      obtain ⟨when?, rfl⟩ := Item.jump_of_waitsFor waits
      have inside : c.pc + 1 + 2 ≤ (c.add (.jump when? (.waiting label))).pc := by simp
      have hasSlot : ((c.add (.jump when? (.waiting label))).assemble
          (resolve label adr items)).hasSlot (c.pc + 1) = true := by
        simp [hasSlot]
      simp only [↓reduceIte, Except.bind, patchAll, hasSlot]
      rw [patch_assemble inside, patch_add_waiting]
      simp [Item.resolve, Destination.resolve]

/-- Letting a label stand for the end of the code resolves it in the items that were assembled. -/
theorem here_slots (label : OpenLabel) (c : CodeBuffer) (items : List Item) :
    (Label.pending (slots label c.pc items)).here (c.assemble items) =
      .ok (.resolved (c.pc + size items),
        c.assemble (resolve label (c.pc + size items) items)) := by
  simp only [here, pc_assemble, patchAll_slots, Except.map]

/-- Slots can be filled in before or after more code is added. -/
theorem patchAll_assemble {slots : List Nat} (adr : Nat) (rest : List Item)
    (inside : ∀ pos ∈ slots, pos + 2 ≤ c.pc) :
    patchAll adr slots (c.assemble rest) = (patchAll adr slots c).map (·.assemble rest) := by
  induction slots generalizing c with
  | nil => rfl
  | cons pos slots ih =>
    have first := inside pos mem_cons_self
    have hasSlot : c.hasSlot pos = true := by simpa [hasSlot] using first
    have hasSlot' : (c.assemble rest).hasSlot pos = true := by
      simp only [CodeBuffer.hasSlot, CodeBuffer.pc_assemble, decide_eq_true_eq]
      omega
    simp only [patchAll, hasSlot, hasSlot', ↓reduceIte]
    rw [patch_assemble first]
    exact ih fun other member => by
      rw [pc_patch]
      exact inside other (mem_cons_of_mem _ member)

/-- Letting a label stand for the end of the code after more code was added. -/
theorem here_slots_assemble (label : OpenLabel) (c : CodeBuffer) (items rest : List Item) :
    (Label.pending (slots label c.pc items)).here ((c.assemble items).assemble rest) =
      .ok (.resolved (c.pc + size items + size rest),
        c.assemble (resolve label (c.pc + size items + size rest) items ++ rest)) := by
  have inside : ∀ pos ∈ slots label c.pc items, pos + 2 ≤ (c.assemble items).pc := by
    intro pos member
    rw [pc_assemble]
    exact slots_inside member
  simp only [here, patchAll_assemble _ rest inside, pc_assemble, patchAll_slots, Except.map,
    assemble_append]

end Label

end MicroJava

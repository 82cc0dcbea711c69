import MicroJava.Proofs.Backpatching
import MicroJava.Proofs.Code.Access

/-! # Instructions as they are asked for

Operands, constants, frames and jumps are turned into instructions by operations that may come in any
order, with any number of labels named and resolved in between. `Emission.emitted` lists what an
operation asks for. The code is always assembled from all that was asked for, with every label at its
present address, and a pending label remembers where it was named.
-/

namespace MicroJava

open Items CodeBuffer List Assembly

/-! ## Operations -/

/-- An operation that adds whole instructions to code, or resolves a label. -/
inductive Emission where
  /-- Pushes the value of an operand. -/
  | load (x : Operand)
  | loadConst (value : Int32)
  /-- Stores the value of `y` in `x`. -/
  | assign (x y : Operand)
  /-- Adds one to a variable or subtracts one from it. -/
  | step (x : Operand) (up : Bool)
  | call (x : Operand)
  | enter (parameterCount varCount : Nat)
  /-- The end of a method that returns a type. -/
  | finish (type : TypeId)
  /-- An instruction without operands. -/
  | put (op : Opcode) (alone : op.widths = [])
  | jump (label : Nat)
  | jumpIfTrue (comparison : Option Comparison) (onTrue onFalse : Nat)
  | jumpIfFalse (comparison : Option Comparison) (onTrue onFalse : Nat)
  /-- Lets a label stand for the end of the code. -/
  | here (label : Nat)

/-- Whether the slot or offset of an operand is one that the instruction set supports. -/
def Operand.InRange (x : Operand) : Prop :=
  match x.kind with
  | .localVar => 0 ≤ x.adr ∧ x.adr ≤ 127
  | .staticVar | .field => 0 ≤ x.adr ∧ x.adr ≤ 32767
  | _ => True

namespace Emission

/-- Whether all numbers of an operation fit their operands. Constants always do. -/
def InRange : Emission → Prop
  | load x | step x _ => x.InRange
  | assign x y => x.InRange ∧ y.InRange
  | enter parameterCount varCount => parameterCount ≤ 127 ∧ varCount ≤ 127
  | _ => True

/-- The label that an operation resolves. -/
def resolved? : Emission → Option Nat
  | here label => some label
  | _ => none

end Emission

namespace Assembly

/-- One operation. -/
def perform (s : Assembly) : Emission → Except Fault Assembly
  | .load x => .ok (s.mapCode fun c => (x.loadAndKeep c).result)
  | .loadConst value => .ok (s.mapCode (·.loadConst value))
  | .assign x y => .ok (s.mapCode fun c => (x.assign y c).result)
  | .step x up => .ok (s.mapCode fun c => (x.step up c).result)
  | .call x => s.step (.call x)
  | .enter parameterCount varCount => .ok (s.mapCode (·.enter parameterCount varCount))
  | .finish type => .ok (s.mapCode (·.finishMethod type))
  | .put op _ => s.step (.put op)
  | .jump label => s.step (.jump .jmp label)
  | .jumpIfTrue comparison onTrue onFalse => s.step (.jumpIfTrue comparison onTrue onFalse)
  | .jumpIfFalse comparison onTrue onFalse => s.step (.jumpIfFalse comparison onTrue onFalse)
  | .here label => s.step (.here label)

/-- Operations one after the other. -/
def performAll (s : Assembly) : List Emission → Except Fault Assembly
  | [] => .ok s
  | e :: rest =>
    match s.perform e with
    | .ok s => s.performAll rest
    | .error fault => .error fault

@[simp] theorem code_replace (s : Assembly) (label : Nat) (result : Label × CodeBuffer) :
    (s.replace label result).code = result.2 := rfl

@[simp] theorem labels_replace_self (s : Assembly) (label : Nat) (result : Label × CodeBuffer) :
    (s.replace label result).labels label = result.1 := Function.update_self ..

private theorem labels_replace_of_ne (s : Assembly) {label other : Nat} (different : other ≠ label)
    (result : Label × CodeBuffer) : (s.replace label result).labels other = s.labels other :=
  Function.update_of_ne different ..

theorem performAll_append {s s1 : Assembly} {front : List Emission}
    (run : s.performAll front = .ok s1) (back : List Emission) :
    s.performAll (front ++ back) = s1.performAll back := by
  induction front generalizing s with
  | nil =>
    cases run
    rfl
  | cons e front ih =>
    rw [performAll] at run
    rw [cons_append, performAll]
    cases first : s.perform e with
    | ok s' =>
      rw [first] at run
      exact ih run
    | error fault =>
      rw [first] at run
      cases run

end Assembly

/-! ## What operations ask for -/

/-- An instruction as it is asked for: a jump names a label, and any other one is known at once. -/
inductive Emitted where
  | straight (i : Item) (noJump : i.isJump = false)
  | jump (when? : Option Comparison) (label : Nat)

namespace Emitted

/-- Instructions that are known at once. -/
def ofItems (items : List Item) (straight : Items.Straight items) : List Emitted :=
  items.pmap .straight straight

def opcode : Emitted → Opcode
  | straight i _ => i.opcode
  | jump when? _ => Item.jumpOp when?

/-- The number of bytes of an instruction. -/
def size (e : Emitted) : Nat := e.opcode.size

/-- The number of bytes of instructions. -/
def sizes (es : List Emitted) : Nat := es.foldr (·.size + ·) 0

end Emitted

theorem Opcode.isTransfer_of_widths {op : Opcode} (alone : op.widths = []) :
    op.isTransfer = false := by
  cases op <;> first | rfl | cases alone

theorem Opcode.proper_of_widths {op : Opcode} (alone : op.widths = []) :
    ([] : List Int).length = op.widths.length ∧ op.isTransfer = false :=
  ⟨by simp [alone], isTransfer_of_widths alone⟩

theorem Opcode.proper_enter (parameterCount varCount : Nat) :
    [(parameterCount : Int), varCount].length = enter.widths.length ∧ enter.isTransfer = false :=
  ⟨rfl, rfl⟩

open Emitted in
/-- The instructions that an operation asks for. A conditional jump without a comparison is none. -/
def Emission.emitted : Emission → List Emitted
  | load x => if x.kind = .method then [] else ofItems x.loadItems x.straight_loadItems
  | loadConst value => [.straight (.const value.toInt) (Item.isJump_const _)]
  | assign x y =>
    ofItems (y.loadItems ++ x.storeItems)
      (Items.straight_append.mpr ⟨y.straight_loadItems, x.straight_storeItems⟩)
  | step x up => ofItems (x.stepItems up) (x.straight_stepItems up)
  | call x => [.straight (.call x.adr) rfl]
  | enter parameterCount varCount =>
    [.straight (.plain .enter [parameterCount, varCount] (Opcode.proper_enter _ _)) rfl]
  | finish type => ofItems (CodeBuffer.finishItems type) (CodeBuffer.straight_finishItems type)
  | put op alone => [.straight (.plain op [] (Opcode.proper_of_widths alone)) rfl]
  | jump label => [.jump none label]
  | jumpIfTrue comparison onTrue _ =>
    (comparison.map fun relation => .jump (some relation) onTrue).toList
  | jumpIfFalse comparison _ onFalse =>
    (comparison.map fun relation => .jump (some relation.negate) onFalse).toList
  | here _ => []

/-! ## Code assembled from what was asked for -/

namespace Emitted

/-- An instruction with labels in their places. -/
def item (destination : Nat → Destination) : Emitted → Item
  | straight i _ => i
  | jump when? label => .jump when? (destination label)

/-- Whether an instruction names a label. -/
def names (label : Nat) : Emitted → Bool
  | straight _ _ => false
  | jump _ other => label == other

/-- Where a label is named in instructions from an address on, the last place first. -/
def slots (label : Nat) : (adr : Nat) → List Emitted → List Nat
  | _, [] => []
  | adr, e :: es => slots label (adr + e.size) es ++ if e.names label then [adr + 1] else []

variable {es : List Emitted} {destination : Nat → Destination} {label adr : Nat}

theorem size_item (e : Emitted) : (e.item destination).size = e.size := by
  cases e <;> rfl

private theorem size_items : Items.size (es.map (item destination)) = sizes es := by
  induction es with
  | nil => rfl
  | cons e es ih => rw [map_cons, size_cons, size_item, ih]; rfl

private theorem map_item_ofItems (items : List Item) (straight : Straight items) :
    (ofItems items straight).map (item destination) = items := by
  induction items with
  | nil => rfl
  | cons i items ih => exact congrArg (i :: ·) (ih _)

private theorem slots_append (front back : List Emitted) :
    slots label adr (front ++ back) = slots label (adr + sizes front) back ++ slots label adr front := by
  induction front generalizing adr with
  | nil => simp [slots, sizes]
  | cons e front ih => simp [slots, ih, sizes, Nat.add_assoc]

private theorem slots_ofItems (items : List Item) (straight : Straight items) :
    slots label adr (ofItems items straight) = [] := by
  induction items generalizing adr with
  | nil => rfl
  | cons i items ih => exact congrArg (· ++ []) (ih _)

/-- The slots of a label, in items where nothing else waits for what it waits for. -/
theorem slots_items {waits : OpenLabel}
    (own : ∀ other, destination other = .waiting waits ↔ label = other) :
    Items.slots waits adr (es.map (item destination)) = slots label adr es := by
  induction es generalizing adr with
  | nil => rfl
  | cons e es ih =>
    have same : (e.item destination).waitsFor waits = e.names label := by
      cases e with
      | straight i noJump => cases i <;> first | rfl | cases noJump
      | jump when? other =>
        rw [Bool.eq_iff_iff, names, beq_iff_eq, ← own other]
        cases place : destination other with
        | address adr => simp [item, place, Item.waitsFor]
        | waiting wanted =>
          simp only [item, place, Item.waitsFor, beq_iff_eq, Destination.waiting.injEq]
          exact eq_comm
    rw [map_cons, Items.slots, ih, size_item, same, slots]

private theorem resolve_items (waits : OpenLabel) (adr : Nat) :
    resolve waits adr (es.map (item destination)) =
      es.map (item fun label => (destination label).resolve waits adr) := by
  rw [resolve, map_map]
  apply map_congr_left
  intro e _
  cases e with
  | straight i noJump => cases i <;> first | rfl | cases noJump
  | jump when? label => rfl

end Emitted

namespace CodeBuffer

private theorem put_eq_add (c : CodeBuffer) (op : Opcode)
    (proper : ([] : List Int).length = op.widths.length ∧ op.isTransfer = false) :
    c.put op = c.add (.plain op [] proper) := by
  simp [add, emit, Instruction.encode, put_eq_append]

/-- The label that an item waits for does not show in the code. -/
theorem assemble_congr {es : List Emitted} {c : CodeBuffer} {d d' : Nat → Destination}
    (alike : ∀ label, d label = d' label ∨ ∃ waits waits', d label = .waiting waits ∧
      d' label = .waiting waits') :
    c.assemble (es.map (Emitted.item d)) = c.assemble (es.map (Emitted.item d')) := by
  induction es generalizing c with
  | nil => rfl
  | cons e es ih =>
    have first : c.add (e.item d) = c.add (e.item d') := by
      cases e with
      | straight i noJump => rfl
      | jump when? label =>
        simp only [Emitted.item]
        rcases alike label with same | ⟨waits, waits', first, second⟩
        · rw [same]
        · rw [first, second]
          rfl
    rw [map_cons, map_cons, assemble_cons, assemble_cons, first, ih]

end CodeBuffer

namespace Label

/-- Where a label lies. Jumps to one that is pending are all taken to wait for the same. -/
def destination : Label → Destination
  | resolved adr => .address adr
  | pending _ => .waiting .exit

private theorem jump_spec (label : Label) (when? : Option Comparison) (c : CodeBuffer) :
    (label.jump (Item.jumpOp when?) c).2 = c.add (.jump when? label.destination) ∧
      (label.jump (Item.jumpOp when?) c).1.destination = label.destination ∧
      (label.jump (Item.jumpOp when?) c).1.adr? = label.adr? := by
  cases label <;> simp [jump, put, destination, adr?, add]

private theorem jump_eq_pending {label : Label} {when? : Option Comparison} {c : CodeBuffer}
    {slots : List Nat} (pending : (label.jump (Item.jumpOp when?) c).1 = .pending slots) :
    ∃ before, label = .pending before ∧ slots = (c.pc + 1) :: before := by
  cases label with
  | resolved adr => cases pending
  | pending before => exact ⟨before, rfl, by simpa [jump, put] using pending.symm⟩

end Label

namespace Emitted

/-- Whether code and labels are what was asked for. -/
structure Describes (es : List Emitted) (s : Assembly) : Prop where
  code : s.code = CodeBuffer.empty.assemble (es.map (item fun label => (s.labels label).destination))
  pending : ∀ label slots, s.labels label = .pending slots → slots = Emitted.slots label 0 es

variable {es : List Emitted} {s : Assembly}

theorem describes_start : Describes [] .start where
  code := rfl
  pending _ slots fresh := by
    cases fresh
    rfl

section

variable (describes : Describes es s)

include describes

theorem Describes.pc : s.code.pc = sizes es := by
  rw [describes.code, pc_assemble, size_items]
  exact Nat.zero_add _

/-- Instructions that are known at once. -/
theorem Describes.straight {items : List Item} (straight : Straight items)
    {change : CodeBuffer → CodeBuffer} (adds : ∀ c, change c = c.assemble items) :
    Describes (es ++ ofItems items straight) (s.mapCode change) where
  code := by
    rw [mapCode, adds, map_append, map_item_ofItems, assemble_append, ← describes.code]
  pending label slots waiting := by
    rw [slots_append, slots_ofItems, nil_append]
    exact describes.pending label slots waiting

/-- A jump to a label, wherever it lies. -/
theorem Describes.jump (when? : Option Comparison) (label : Nat) :
    Describes (es ++ [.jump when? label])
      (s.replace label ((s.labels label).jump (Item.jumpOp when?) s.code)) := by
  obtain ⟨code, stays, _⟩ := (s.labels label).jump_spec when? s.code
  have places (other : Nat) : ((s.replace label
      ((s.labels label).jump (Item.jumpOp when?) s.code)).labels other).destination =
        (s.labels other).destination := by
    by_cases same : other = label
    · subst same
      rw [labels_replace_self, stays]
    · rw [labels_replace_of_ne s same]
  constructor
  · simp only [places, map_append, assemble_append, ← describes.code]
    exact code
  · intro other slots waiting
    rw [slots_append, Nat.zero_add, ← describes.pc]
    by_cases same : other = label
    · subst same
      rw [labels_replace_self] at waiting
      obtain ⟨before, named, rfl⟩ := Label.jump_eq_pending waiting
      rw [describes.pending other before named]
      simp [Emitted.slots, names]
    · rw [labels_replace_of_ne s same] at waiting
      rw [describes.pending other slots waiting]
      simp [Emitted.slots, names, same]

/-- Resolving a label puts it at the end of the code wherever it was named. -/
theorem Describes.here {label : Nat} {slots : List Nat}
    (waiting : s.labels label = .pending slots) :
    ∃ c, (s.labels label).here s.code = .ok (.resolved s.code.pc, c) ∧
      Describes es (s.replace label (.resolved s.code.pc, c)) := by
  -- All labels where they lie, and this one apart from the other pending ones.
  let apart : Nat → Destination :=
    Function.update (fun other => (s.labels other).destination) label (.waiting .holds)
  have own (other : Nat) : apart other = .waiting .holds ↔ label = other := by
    by_cases same : other = label
    · subst same
      simp [apart]
    · cases place : s.labels other <;> simp [apart, same, Ne.symm same, place, Label.destination]
  have code : s.code = empty.assemble (es.map (item apart)) := by
    rw [describes.code]
    apply assemble_congr
    intro other
    by_cases same : other = label
    · subst same
      exact .inr ⟨.exit, .holds, by rw [waiting]; rfl, by simp [apart]⟩
    · exact .inl (by simp [apart, same])
  have named : Items.slots .holds empty.pc (es.map (item apart)) = slots :=
    (slots_items own).trans (describes.pending label slots waiting).symm
  have resolves := Label.here_slots .holds .empty (es.map (item apart))
  rw [named, ← code] at resolves
  have place : empty.pc + Items.size (es.map (item apart)) = s.code.pc := by
    rw [code, pc_assemble]
  rw [place, ← waiting] at resolves
  have moved (c : CodeBuffer) (other : Nat) :
      ((s.replace label (.resolved s.code.pc, c)).labels other).destination =
        (apart other).resolve .holds s.code.pc := by
    by_cases same : other = label
    · subst same
      simp [apart, Destination.resolve, Label.destination]
    · rw [labels_replace_of_ne s same]
      cases place : s.labels other <;> simp [apart, same, place, Destination.resolve, Label.destination]
  refine ⟨_, resolves, ?_, ?_⟩
  · simp only [moved, resolve_items, code_replace]
  · intro other slots' waiting'
    by_cases same : other = label
    · subst same
      simp at waiting'
    · rw [labels_replace_of_ne s same] at waiting'
      exact describes.pending other slots' waiting'

end

end Emitted

namespace Assembly

open Emitted

variable {es : List Emitted} {s : Assembly}

/-- A conditional jump names one of the labels of its condition and leaves the other one. -/
theorem step_jumpIfTrue (s : Assembly) (relation : Comparison) (onTrue onFalse : Nat) :
    s.step (.jumpIfTrue (some relation) onTrue onFalse) =
      .ok (s.replace onTrue ((s.labels onTrue).jump relation.jump s.code)) := by
  simp [step, Condition.jumpIfTrue, replace]

private theorem step_jumpIfFalse (s : Assembly) (relation : Comparison) (onTrue onFalse : Nat) :
    s.step (.jumpIfFalse (some relation) onTrue onFalse) =
      .ok (s.replace onFalse ((s.labels onFalse).jump relation.negate.jump s.code)) := by
  simp [step, Condition.jumpIfFalse, replace]

private theorem step_jumpIfTrue_none (s : Assembly) (onTrue onFalse : Nat) :
    s.step (.jumpIfTrue none onTrue onFalse) = .ok s := by
  simp [step, Condition.jumpIfTrue, replace]

private theorem step_jumpIfFalse_none (s : Assembly) (onTrue onFalse : Nat) :
    s.step (.jumpIfFalse none onTrue onFalse) = .ok s := by
  simp [step, Condition.jumpIfFalse, replace]

/-- Whether an operation leads to a state that what is asked for describes. A label gets the end of the
code as its address when it is resolved, and keeps it. -/
def Performs (s : Assembly) (es : List Emitted) (e : Emission) : Prop :=
  ∃ s', s.perform e = .ok s' ∧ Describes (es ++ e.emitted) s' ∧ ∀ label,
    (s'.labels label).adr? = if e.resolved? = some label then some s.code.pc else (s.labels label).adr?

section

variable (describes : Describes es s) {e : Emission}

include describes

private theorem performs_straight (items : List Item) (straight : Straight items)
    (change : CodeBuffer → CodeBuffer) (adds : ∀ c, change c = c.assemble items)
    (asks : e.emitted = ofItems items straight) (run : s.perform e = .ok (s.mapCode change))
    (resolves : e.resolved? = none) : s.Performs es e := by
  refine ⟨_, run, ?_, fun label => ?_⟩
  · rw [asks]
    exact describes.straight straight adds
  · rw [resolves]
    rfl

private theorem performs_jump (when? : Option Comparison) (label : Nat)
    (asks : e.emitted = [.jump when? label])
    (run : s.perform e = .ok (s.replace label ((s.labels label).jump (Item.jumpOp when?) s.code)))
    (resolves : e.resolved? = none) : s.Performs es e := by
  refine ⟨_, run, ?_, fun other => ?_⟩
  · rw [asks]
    exact describes.jump when? label
  · rw [resolves, if_neg (by simp)]
    by_cases same : other = label
    · subst same
      rw [labels_replace_self]
      exact ((s.labels other).jump_spec when? s.code).2.2
    · rw [labels_replace_of_ne s same]

private theorem performs_nothing (asks : e.emitted = []) (run : s.perform e = .ok s)
    (resolves : e.resolved? = none) : s.Performs es e := by
  refine ⟨s, run, ?_, fun label => ?_⟩
  · rw [asks, append_nil]
    exact describes
  · rw [resolves]
    rfl

theorem performs_here {label : Nat} (pending : (s.labels label).adr? = none) :
    s.Performs es (.here label) := by
  cases waiting : s.labels label with
  | resolved adr =>
    rw [waiting] at pending
    cases pending
  | pending slots =>
    obtain ⟨c, run, after⟩ := describes.here waiting
    refine ⟨s.replace label (.resolved s.code.pc, c), ?_, ?_, fun other => ?_⟩
    · simp only [perform, step, run, Except.map]
    · rw [Emission.emitted, append_nil]
      exact after
    · by_cases same : other = label
      · subst same
        simp [Emission.resolved?, Label.adr?]
      · rw [labels_replace_of_ne s same, Emission.resolved?, if_neg]
        exact fun equal => same (Option.some.inj equal).symm

/-- Every operation succeeds that resolves no label a second time. -/
theorem performs (e : Emission)
    (pending : ∀ label, e.resolved? = some label → (s.labels label).adr? = none) :
    s.Performs es e := by
  cases e with
  | load x =>
    by_cases method : x.kind = .method
    · apply performs_nothing describes
      · simp [Emission.emitted, method]
      · simp [perform, mapCode, Operand.loadAndKeep, method]
      · rfl
    · have asks : (Emission.load x).emitted = ofItems x.loadItems x.straight_loadItems :=
        if_neg method
      apply performs_straight describes x.loadItems x.straight_loadItems
        (fun c => (x.loadAndKeep c).result) _ asks rfl rfl
      intro c
      rw [x.loadAndKeep_eq c method]
  | loadConst value =>
    exact performs_straight describes [.const value.toInt] (by simp) (·.loadConst value)
      (·.loadConst_eq value) rfl rfl rfl
  | assign x y =>
    apply performs_straight describes (y.loadItems ++ x.storeItems) (by simp)
      (fun c => (x.assign y c).result) _ rfl rfl rfl
    intro c
    rw [x.assign_eq y c]
  | step x up =>
    apply performs_straight describes (x.stepItems up) (x.straight_stepItems up)
      (fun c => (x.step up c).result) _ rfl rfl rfl
    intro c
    rw [x.step_eq up c]
  | call x =>
    apply performs_straight describes [.call x.adr] (by simp) (fun c => (x.call c).result) _ rfl rfl rfl
    intro c
    rw [x.call_eq c]
    rfl
  | enter parameterCount varCount =>
    exact performs_straight describes
      [.plain .enter [parameterCount, varCount] (Opcode.proper_enter _ _)] (by simp)
      (·.enter parameterCount varCount) (fun _ => rfl) rfl rfl rfl
  | finish type =>
    exact performs_straight describes (finishItems type)
      (straight_finishItems type) (·.finishMethod type) (·.finishMethod_eq type) rfl rfl rfl
  | put op alone =>
    have proper := Opcode.proper_of_widths alone
    exact performs_straight describes [.plain op [] proper] (by simp) (·.put op)
      (·.put_eq_add op proper) rfl rfl rfl
  | jump label => exact performs_jump describes none label rfl rfl rfl
  | jumpIfTrue comparison onTrue onFalse =>
    cases comparison with
    | none => exact performs_nothing describes rfl (s.step_jumpIfTrue_none onTrue onFalse) rfl
    | some relation =>
      exact performs_jump describes (some relation) onTrue rfl
        (s.step_jumpIfTrue relation onTrue onFalse) rfl
  | jumpIfFalse comparison onTrue onFalse =>
    cases comparison with
    | none => exact performs_nothing describes rfl (s.step_jumpIfFalse_none onTrue onFalse) rfl
    | some relation =>
      exact performs_jump describes (some relation.negate) onFalse rfl
        (s.step_jumpIfFalse relation onTrue onFalse) rfl
  | here label => exact performs_here describes (pending label rfl)

/-- Operations succeed that resolve no label twice. In the end what was asked for describes the code,
and labels that were not resolved are what they were. -/
theorem performAll_describes {ops : List Emission} (once : (ops.filterMap Emission.resolved?).Nodup)
    (pending : ∀ label ∈ ops.filterMap Emission.resolved?, (s.labels label).adr? = none) :
    ∃ s', s.performAll ops = .ok s' ∧ Describes (es ++ ops.flatMap Emission.emitted) s' ∧
      ∀ label, label ∉ ops.filterMap Emission.resolved? →
        (s'.labels label).adr? = (s.labels label).adr? := by
  induction ops generalizing s es with
  | nil => exact ⟨s, rfl, by simpa using describes, fun _ _ => rfl⟩
  | cons e ops ih =>
    have split (label : Nat) : label ∈ (e :: ops).filterMap Emission.resolved? ↔
        e.resolved? = some label ∨ label ∈ ops.filterMap Emission.resolved? := by
      simp [mem_filterMap]
    obtain ⟨s1, first, describes1, places⟩ := performs describes e fun label resolves =>
      pending label ((split label).mpr (.inl resolves))
    have apart : ∀ label ∈ ops.filterMap Emission.resolved?, e.resolved? ≠ some label := by
      intro label member resolves
      rw [filterMap_cons_some resolves, nodup_cons] at once
      exact once.1 member
    have once1 : (ops.filterMap Emission.resolved?).Nodup :=
      once.sublist ((sublist_cons_self e ops).filterMap _)
    have pending1 : ∀ label ∈ ops.filterMap Emission.resolved?, (s1.labels label).adr? = none := by
      intro label member
      rw [places label, if_neg (apart label member)]
      exact pending label ((split label).mpr (.inr member))
    obtain ⟨s', rest, describes', keeps⟩ := ih describes1 once1 pending1
    refine ⟨s', ?_, ?_, fun label other => ?_⟩
    · rw [performAll, first]
      exact rest
    · rwa [append_assoc] at describes'
    · rw [split, not_or] at other
      rw [keeps label other.2, places label, if_neg other.1]

end

end Assembly

end MicroJava

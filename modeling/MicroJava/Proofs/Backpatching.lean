import Mathlib.Data.List.Nodup
import Mathlib.Data.List.Pairwise
import Mathlib.Logic.Function.Basic
import MicroJava.Proofs.Code.Resolve

/-! # Labels and the slots that wait for them

Code grows while any number of labels are named and resolved, in any order. `CodeHistory` tells from
the operations alone which bytes were appended, where the slots of each label lie, which address a
label got and which offsets were written. The code buffer always agrees with it: a slot holds the
distance to its label once the label is resolved and zero before, slots do not overlap, and no other
byte ever changes.
-/

namespace MicroJava

open CodeBuffer List

/-! ## Operations -/

/-- An operation on code and numbered labels. Code is added in single bytes, numbers and offsets or
in whole instructions; of these only a call has an offset. -/
inductive CodeAction where
  | put (op : Opcode)
  | number (width : Width) (x : Int)
  | offset (x : Int)
  | emit (op : Opcode) (operands : List Int)
  | call (x : Operand)
  /-- Sets the number of offsets that did not fit back to zero. -/
  | clear
  /-- The offset of a jump to a label, or a slot for it. -/
  | target (label : Nat)
  | jump (op : Opcode) (label : Nat)
  | jumpIfTrue (comparison : Option Comparison) (onTrue onFalse : Nat)
  | jumpIfFalse (comparison : Option Comparison) (onTrue onFalse : Nat)
  /-- Lets a label stand for the end of the code. -/
  | here (label : Nat)

/-- The label that an operation resolves. -/
def CodeAction.resolved? : CodeAction → Option Nat
  | here label => some label
  | _ => none

/-- Code with the labels that its jumps name. -/
structure Assembly where
  code : CodeBuffer
  labels : Nat → Label

namespace Assembly

/-- No code yet, and no label named. -/
def start : Assembly := ⟨.empty, fun _ => .fresh⟩

/-- Changes the code. -/
def mapCode (s : Assembly) (f : CodeBuffer → CodeBuffer) : Assembly := { s with code := f s.code }

/-- Replaces a label and the code. -/
def replace (s : Assembly) (label : Nat) (result : Label × CodeBuffer) : Assembly :=
  ⟨result.2, Function.update s.labels label result.1⟩

/-- One operation. The label that a conditional jump names is written last, so that it counts even
if a condition has one label for both outcomes. -/
def step (s : Assembly) : CodeAction → Except Fault Assembly
  | .put op => .ok (s.mapCode (·.put op))
  | .number width x => .ok (s.mapCode (·.putNumber width x))
  | .offset x => .ok (s.mapCode (·.putOffset x))
  | .emit op operands => .ok (s.mapCode (·.emit op operands))
  | .call x => .ok (s.mapCode fun c => (x.call c).result)
  | .clear => .ok (s.mapCode (·.clearFarOffsets))
  | .target label => .ok (s.replace label ((s.labels label).put s.code))
  | .jump op label => .ok (s.replace label ((s.labels label).jump op s.code))
  | .jumpIfTrue comparison onTrue onFalse =>
    let (x, code) :=
      Condition.jumpIfTrue ⟨comparison, s.labels onTrue, s.labels onFalse⟩ s.code
    .ok ((s.replace onFalse (x.onFalse, code)).replace onTrue (x.onTrue, code))
  | .jumpIfFalse comparison onTrue onFalse =>
    let (x, code) :=
      Condition.jumpIfFalse ⟨comparison, s.labels onTrue, s.labels onFalse⟩ s.code
    .ok ((s.replace onTrue (x.onTrue, code)).replace onFalse (x.onFalse, code))
  | .here label => ((s.labels label).here s.code).map (s.replace label)

/-- Operations one after the other. -/
def run (s : Assembly) : List CodeAction → Except Fault Assembly
  | [] => .ok s
  | action :: rest =>
    match s.step action with
    | .ok s => s.run rest
    | .error fault => .error fault

end Assembly

/-! ## What operations amount to -/

/-- Two bytes that a jump to a label has for its offset. -/
structure Slot where
  label : Nat
  pos : Nat

/-- The distance from the end of a slot to an address. -/
def Slot.distance (slot : Slot) (adr : Nat) : Int := (adr : Int) - (slot.pos + 2 : Nat)

/-- Whether two slots have no byte in common. -/
def Slot.Apart (a b : Slot) : Prop := a.pos + 2 ≤ b.pos ∨ b.pos + 2 ≤ a.pos

/-- Whether a byte belongs to a slot. -/
def Slot.Covers (slot : Slot) (i : Nat) : Prop := i = slot.pos ∨ i = slot.pos + 1

/-- What became of code and labels, told from the operations alone. -/
structure CodeHistory where
  /-- Every byte as it was appended, with zeros in slots. -/
  appended : List UInt8
  /-- The slots of all jumps to labels, the newest first. -/
  slots : List Slot
  /-- Where the code ended when a label was resolved. -/
  address : Nat → Option Nat
  /-- The offsets that were written or filled in since the count was last taken. -/
  offsets : List Int

namespace CodeHistory

def start : CodeHistory := ⟨[], [], fun _ => none, []⟩

/-- Where the code ends. -/
def length (h : CodeHistory) : Nat := h.appended.length

def append (h : CodeHistory) (bytes : List UInt8) : CodeHistory :=
  { h with appended := h.appended ++ bytes }

def write (h : CodeHistory) (offset : Int) : CodeHistory :=
  { h.append (Width.short.encode offset) with offsets := offset :: h.offsets }

/-- A jump to a label has its slot at the end of the code. If the address is known, the offset is
written at once. -/
def target (h : CodeHistory) (label : Nat) : CodeHistory :=
  let slot : Slot := ⟨label, h.length⟩
  { h.append [0, 0] with
    slots := slot :: h.slots
    offsets := ((h.address label).map slot.distance).toList ++ h.offsets }

/-- The slots of the jumps to a label. -/
def slotsOf (h : CodeHistory) (label : Nat) : List Slot := h.slots.filter (·.label = label)

/-- A label gets the end of the code as its address, and its slots are filled in. -/
def here (h : CodeHistory) (label : Nat) : CodeHistory :=
  { h with
    address := Function.update h.address label (some h.length)
    offsets := (h.slotsOf label).map (·.distance h.length) ++ h.offsets }

def step (h : CodeHistory) : CodeAction → CodeHistory
  | .put op => h.append [op.code]
  | .number width x => h.append (width.encode x)
  | .offset x => h.write x
  | .emit op operands => h.append (Instruction.encode op operands)
  | .call x => (h.append [Opcode.call.code]).write (x.adr - (h.length + 3 : Nat))
  | .clear => { h with offsets := [] }
  | .target label => h.target label
  | .jump op label => (h.append [op.code]).target label
  | .jumpIfTrue none _ _ | .jumpIfFalse none _ _ => h
  | .jumpIfTrue (some comparison) onTrue _ => (h.append [comparison.jump.code]).target onTrue
  | .jumpIfFalse (some comparison) _ onFalse =>
    (h.append [comparison.negate.jump.code]).target onFalse
  | .here label => h.here label

/-- What operations amount to from the beginning on. -/
def ofActions (actions : List CodeAction) : CodeHistory := actions.foldl step start

/-- The number that a slot holds before it is cut to two bytes: the distance to its label, or zero
while that is not known. -/
def content (h : CodeHistory) (slot : Slot) : Int := (h.address slot.label).elim 0 slot.distance

end CodeHistory

/-- The number that two bytes of code stand for, the high byte first and without a sign. -/
def CodeBuffer.word? (c : CodeBuffer) (pos : Nat) : Option Int := do
  let high ← c.bytes[pos]?
  let low ← c.bytes[pos + 1]?
  return 256 * high.toNat + low.toNat

/-- Whether code and labels are what operations amount to. -/
structure CodeHistory.Describes (h : CodeHistory) (s : Assembly) : Prop where
  length : s.code.pc = h.length
  address : ∀ label, (s.labels label).adr? = h.address label
  /-- A slot holds the low bits of the distance to its label, or zero. -/
  slot : ∀ slot ∈ h.slots, s.code.word? slot.pos = some (h.content slot % 0x10000)
  /-- All other bytes are what was appended. -/
  elsewhere : ∀ i, (∀ slot ∈ h.slots, ¬ slot.Covers i) → s.code.bytes[i]? = h.appended[i]?
  apart : h.slots.Pairwise Slot.Apart
  far : s.code.farOffsets = h.offsets.countP fun x => x < -0x8000 ∨ 0x7fff < x

/-! ## Bytes of a buffer -/

namespace CodeBuffer

variable {c d : CodeBuffer} {pos : Nat}

private theorem word?_of_bytes {x : Int} (high : c.bytes[pos]? = some (lowByte (x / 0x100)))
    (low : c.bytes[pos + 1]? = some (lowByte x)) : c.word? pos = some (x % 0x10000) := by
  simp only [word?, high, low, Option.bind_eq_bind, Option.bind_some, toNat_lowByte]
  refine congrArg some ?_
  omega

private theorem word?_congr (high : d.bytes[pos]? = c.bytes[pos]?)
    (low : d.bytes[pos + 1]? = c.bytes[pos + 1]?) : d.word? pos = c.word? pos := by
  simp only [word?, high, low]

theorem getElem?_append_left (bytes : List UInt8) {i : Nat} (inside : i < c.pc) :
    (c.append bytes).bytes[i]? = c.bytes[i]? := by
  have inside : i < c.bytes.toList.length := inside
  rw [← Array.getElem?_toList, toList_append, List.getElem?_append_left inside,
    Array.getElem?_toList]

private theorem word?_append (bytes : List UInt8) (inside : pos + 2 ≤ c.pc) :
    (c.append bytes).word? pos = c.word? pos :=
  word?_congr (getElem?_append_left bytes (by omega)) (getElem?_append_left bytes (by omega))

private theorem word?_append_short (c : CodeBuffer) (x : Int) :
    (c.append (Width.short.encode x)).word? c.pc = some (x % 0x10000) := by
  have length : c.pc = c.bytes.toList.length := rfl
  apply word?_of_bytes
  · rw [← Array.getElem?_toList, toList_append, length, getElem?_append_right (Nat.le_refl _)]
    simp [Width.encode]
  · rw [← Array.getElem?_toList, toList_append, length, getElem?_append_right (by omega)]
    simp [Width.encode]

@[simp] theorem pc_append (c : CodeBuffer) (bytes : List UInt8) :
    (c.append bytes).pc = c.pc + bytes.length := by
  have same := congrArg length (c.toList_append bytes)
  simpa [pc] using same

theorem put_eq_append (c : CodeBuffer) (op : Opcode) : c.put op = c.append [op.code] := by
  apply eq_of_fields
  · rw [toList_append]
    simp [put]
  · rfl
  · rfl
  · rfl

private theorem fits_eq_false {x : Int} : fits x = false ↔ x < -0x8000 ∨ 0x7fff < x := by
  simp only [fits, Bool.and_eq_false_iff, decide_eq_false_iff_not, Int.not_le]

/-- Writing an offset adds its bytes and counts it if it does not fit. -/
theorem putOffset_spec (c : CodeBuffer) (x : Int) :
    (c.putOffset x).bytes = (c.append (Width.short.encode x)).bytes ∧
      (c.putOffset x).farOffsets = c.farOffsets + if x < -0x8000 ∨ 0x7fff < x then 1 else 0 := by
  cases fit : fits x with
  | true =>
    have near : ¬ (x < -0x8000 ∨ 0x7fff < x) := by simp [← fits_eq_false, fit]
    simp [putOffset, noteOffset, fit, putNumber, near, append]
  | false =>
    have far := fits_eq_false.mp fit
    simp [putOffset, noteOffset, fit, putNumber, far, append]

theorem getElem?_patch {offset : Int} {i : Nat} (outside : i ≠ pos ∧ i ≠ pos + 1) :
    (c.patch pos offset).bytes[i]? = c.bytes[i]? := by
  rw [← Array.getElem?_toList, toList_patch, getElem?_set_ne (Ne.symm outside.2),
    getElem?_set_ne (Ne.symm outside.1), Array.getElem?_toList]

private theorem word?_patch (offset : Int) (inside : pos + 2 ≤ c.pc) :
    (c.patch pos offset).word? pos = some (offset % 0x10000) := by
  have inside : pos + 2 ≤ c.bytes.toList.length := inside
  apply word?_of_bytes
  · rw [← Array.getElem?_toList, toList_patch, getElem?_set_ne (by omega),
      getElem?_set_self (by omega)]
  · rw [← Array.getElem?_toList, toList_patch,
      getElem?_set_self (by rw [length_set]; omega)]

end CodeBuffer

/-! ## Filling in the slots of a label -/

/-- Slots that do not overlap can all be filled in, and nothing else changes. -/
theorem Label.patchAll_spec (adr : Nat) {slots : List Slot} {c : CodeBuffer}
    (inside : ∀ slot ∈ slots, slot.pos + 2 ≤ c.pc) (apart : slots.Pairwise Slot.Apart) :
    ∃ c', patchAll adr (slots.map (·.pos)) c = .ok c' ∧ c'.pc = c.pc ∧
      (∀ slot ∈ slots, c'.word? slot.pos = some (slot.distance adr % 0x10000)) ∧
      (∀ i, (∀ slot ∈ slots, ¬ slot.Covers i) → c'.bytes[i]? = c.bytes[i]?) ∧
      c'.farOffsets = c.farOffsets +
        (slots.map (·.distance adr)).countP fun x => x < -0x8000 ∨ 0x7fff < x := by
  induction slots generalizing c with
  | nil => exact ⟨c, rfl, rfl, by simp, fun _ _ => rfl, rfl⟩
  | cons slot slots ih =>
    obtain ⟨fromFirst, apart⟩ := pairwise_cons.mp apart
    have first := inside slot mem_cons_self
    have hasSlot : c.hasSlot slot.pos = true := decide_eq_true first
    obtain ⟨c', run, pc, filled, others, far⟩ := ih (c := c.patch slot.pos (slot.distance adr))
      (fun other member => by
        rw [pc_patch]
        exact inside other (mem_cons_of_mem _ member)) apart
    refine ⟨c', ?_, by rw [pc, pc_patch], ?_, ?_, ?_⟩
    · rw [map_cons, patchAll, if_pos hasSlot]
      exact run
    · intro other member
      rcases mem_cons.mp member with rfl | member
      · -- The slots filled in later lie apart from this one.
        have kept (i : Nat) (covered : other.Covers i) : ∀ later ∈ slots, ¬ later.Covers i := by
          intro later member covered'
          rcases fromFirst later member with before | behind
          · rcases covered with rfl | rfl <;> rcases covered' with same | same <;> omega
          · rcases covered with rfl | rfl <;> rcases covered' with same | same <;> omega
        rw [word?_congr (others _ (kept _ (.inl rfl))) (others _ (kept _ (.inr rfl)))]
        exact word?_patch _ first
      · exact filled other member
    · intro i outside
      rw [others i fun later member => outside later (mem_cons_of_mem _ member)]
      have notHere := outside slot mem_cons_self
      exact getElem?_patch (not_or.mp notHere)
    · rw [far, (patch_frame ..).2.2, map_cons, countP_cons]
      cases fit : fits (slot.distance adr) with
      | true =>
        have near : ¬ (slot.distance adr < -0x8000 ∨ 0x7fff < slot.distance adr) := by
          simp [← fits_eq_false, fit]
        simp [near]
      | false =>
        have isFar := fits_eq_false.mp fit
        simp only [isFar]
        simp
        omega

/-! ## Every step -/

namespace CodeHistory

variable {h : CodeHistory} {s : Assembly} {label : Nat}

/-- What holds after every operation: also, a label that is not resolved remembers all its slots. -/
structure Invariant (h : CodeHistory) (s : Assembly) : Prop extends h.Describes s where
  inside : ∀ slot ∈ h.slots, slot.pos + 2 ≤ h.length
  pending : ∀ label, h.address label = none →
    s.labels label = .pending ((h.slotsOf label).map (·.pos))

private theorem invariant_start : start.Invariant .start where
  length := rfl
  address _ := rfl
  slot := by simp [start]
  elsewhere := by simp [start, Assembly.start, empty]
  apart := .nil
  far := rfl
  inside := by simp [start]
  pending _ _ := rfl

section

variable (invariant : h.Invariant s)

include invariant

/-- More bytes at the end. -/
theorem Invariant.append (bytes : List UInt8) :
    (h.append bytes).Invariant (s.mapCode (·.append bytes)) where
  length := by
    rw [Assembly.mapCode, pc_append, invariant.length]
    simp [CodeHistory.length, CodeHistory.append]
  address := invariant.address
  slot slot member := by
    have inside := invariant.inside slot member
    rw [← invariant.length] at inside
    exact (word?_append bytes inside).trans (invariant.slot slot member)
  elsewhere i outside := by
    have length : s.code.bytes.toList.length = h.appended.length := invariant.length
    have old := invariant.elsewhere i outside
    rw [Assembly.mapCode, ← Array.getElem?_toList, toList_append]
    change _ = (h.appended ++ bytes)[i]?
    rcases Nat.lt_or_ge i h.appended.length with early | late
    · rw [List.getElem?_append_left (by omega), getElem?_append_left early,
        Array.getElem?_toList, old]
    · rw [getElem?_append_right (by omega), getElem?_append_right late, length]
  apart := invariant.apart
  far := invariant.far
  inside slot member := by
    have inside := invariant.inside slot member
    simp only [CodeHistory.length, CodeHistory.append, length_append] at inside ⊢
    omega
  pending := invariant.pending

/-- What is known of code depends on its bytes and on the count of far offsets. -/
theorem Invariant.congr (s' : Assembly) (bytes : s'.code.bytes = s.code.bytes)
    (labels : s'.labels = s.labels) {offsets : List Int}
    (far : s'.code.farOffsets = offsets.countP fun x => x < -0x8000 ∨ 0x7fff < x) :
    Invariant { h with offsets } s' where
  length := by
    rw [pc, bytes]
    exact invariant.length
  address := by
    rw [labels]
    exact invariant.address
  slot slot member := by
    rw [word?, bytes]
    exact invariant.slot slot member
  elsewhere := by
    rw [bytes]
    exact invariant.elsewhere
  apart := invariant.apart
  far := far
  inside := invariant.inside
  pending := by
    rw [labels]
    exact invariant.pending

/-- An offset at the end. -/
theorem Invariant.write (x : Int) : (h.write x).Invariant (s.mapCode (·.putOffset x)) := by
  obtain ⟨bytes, far⟩ := s.code.putOffset_spec x
  change Invariant { h.append (Width.short.encode x) with offsets := x :: h.offsets } _
  refine (invariant.append (Width.short.encode x)).congr (s.mapCode (·.putOffset x)) bytes rfl ?_
  rw [Assembly.mapCode, far, invariant.far, countP_cons]
  simp

/-- A slot at the end that holds what it has to. -/
theorem Invariant.addSlot (newLabel : Label) {c : CodeBuffer}
    (address : newLabel.adr? = h.address label)
    (pending : h.address label = none →
      newLabel = .pending (s.code.pc :: (h.slotsOf label).map (·.pos)))
    (bytes : c.bytes = (s.code.append (Width.short.encode (h.content ⟨label, h.length⟩))).bytes)
    (far : c.farOffsets = (h.target label).offsets.countP fun x => x < -0x8000 ∨ 0x7fff < x) :
    (h.target label).Invariant (s.replace label (newLabel, c)) := by
  have appended := invariant.append (Width.short.encode (h.content ⟨label, h.length⟩))
  have behind : ∀ slot ∈ h.slots, slot.pos + 2 ≤ h.length := invariant.inside
  have word : c.word? h.length = some (h.content ⟨label, h.length⟩ % 0x10000) := by
    rw [word?, bytes, ← invariant.length]
    exact s.code.word?_append_short _
  refine ⟨⟨?_, ?_, ?_, ?_, ?_, far⟩, ?_, ?_⟩
  · change c.bytes.size = (h.appended ++ [0, 0]).length
    have length : s.code.pc = h.appended.length := invariant.length
    rw [bytes]
    change (s.code.append _).pc = _
    simp [length, Width.encode]
  · intro other
    by_cases same : other = label
    · subst same
      simpa [Assembly.replace, CodeHistory.target, CodeHistory.append] using address
    · simpa [Assembly.replace, same, CodeHistory.target, CodeHistory.append]
        using invariant.address other
  · intro slot member
    rcases mem_cons.mp member with rfl | member
    · exact word
    · change c.word? slot.pos = _
      rw [word?, bytes]
      exact appended.slot slot member
  · intro i outside
    have old := appended.elsewhere i fun slot member =>
      outside slot (mem_cons_of_mem _ member)
    have new := outside ⟨label, h.length⟩ mem_cons_self
    change c.bytes[i]? = (h.appended ++ [0, 0])[i]?
    rw [bytes]
    refine old.trans ?_
    change (h.appended ++ _)[i]? = _
    rcases Nat.lt_or_ge i h.appended.length with early | late
    · rw [getElem?_append_left early, getElem?_append_left early]
    · -- Both bytes behind the old code belong to the slot.
      have late' : h.appended.length + 2 ≤ i := by
        have notFirst : i ≠ h.appended.length := fun same => new (.inl same)
        have notSecond : i ≠ h.appended.length + 1 := fun same => new (.inr same)
        omega
      rw [getElem?_eq_none (by simp [Width.encode]; omega),
        getElem?_eq_none (by simp; omega)]
  · exact pairwise_cons.mpr ⟨fun slot member => .inr (behind slot member), invariant.apart⟩
  · intro slot member
    simp only [CodeHistory.length, CodeHistory.target, CodeHistory.append, length_append,
      length_cons, length_nil] at member ⊢
    rcases mem_cons.mp member with rfl | member
    · exact Nat.le_refl _
    · have inside := behind slot member
      simp only [CodeHistory.length] at inside
      omega
  · intro other unresolved
    have unresolved : h.address other = none := unresolved
    by_cases same : other = label
    · subst same
      have remembers := pending unresolved
      rw [invariant.length] at remembers
      simpa [Assembly.replace, slotsOf, CodeHistory.target, CodeHistory.append] using remembers
    · have different : ¬ label = other := fun equal => same equal.symm
      simpa [Assembly.replace, same, different, slotsOf, CodeHistory.target, CodeHistory.append]
        using invariant.pending other unresolved

/-- The offset of a jump to a label, or a slot for it. -/
theorem Invariant.target (label : Nat) :
    (h.target label).Invariant (s.replace label ((s.labels label).put s.code)) := by
  have address := invariant.address label
  cases known : s.labels label with
  | resolved adr =>
    rw [known] at address
    have address : h.address label = some adr := address.symm
    obtain ⟨bytes, far⟩ := s.code.putOffset_spec (offset adr (s.code.pc + 2))
    have content : h.content ⟨label, h.length⟩ = offset adr (s.code.pc + 2) := by
      simp [content, address, Slot.distance, offset, invariant.length]
    refine invariant.addSlot (.resolved adr) address.symm (by simp [address]) ?_ ?_
    · rw [content]
      exact bytes
    · have offsets : (h.target label).offsets = h.content ⟨label, h.length⟩ :: h.offsets := by
        simp [CodeHistory.target, address, CodeHistory.content]
      rw [offsets, content, countP_cons, ← invariant.far]
      refine far.trans ?_
      simp
  | pending slots =>
    rw [known] at address
    have address : h.address label = none := address.symm
    have remembers := invariant.pending label address
    rw [known, Label.pending.injEq] at remembers
    have content : h.content ⟨label, h.length⟩ = 0 := by simp [content, address]
    refine invariant.addSlot (.pending (s.code.pc :: slots)) (by rw [address]; rfl)
      (by rw [remembers]; simp) ?_ ?_
    · rw [content]
      rfl
    · have offsets : (h.target label).offsets = h.offsets := by
        simp [CodeHistory.target, address]
      rw [offsets, ← invariant.far]
      rfl

/-- A label that was not resolved before can be resolved. -/
theorem Invariant.here (unresolved : h.address label = none) :
    ∃ result, (s.labels label).here s.code = .ok result ∧
      (h.here label).Invariant (s.replace label result) := by
  have own (slot) (member : slot ∈ h.slotsOf label) : slot ∈ h.slots ∧ slot.label = label := by
    simpa [slotsOf] using member
  have inside : ∀ slot ∈ h.slotsOf label, slot.pos + 2 ≤ s.code.pc := by
    intro slot member
    rw [invariant.length]
    exact invariant.inside slot (own slot member).1
  have apart : (h.slotsOf label).Pairwise Slot.Apart := invariant.apart.filter _
  obtain ⟨c, run, pc, filled, others, far⟩ := Label.patchAll_spec s.code.pc inside apart
  refine ⟨(.resolved s.code.pc, c), ?_,
    ⟨⟨?_, ?_, ?_, ?_, invariant.apart, ?_⟩, invariant.inside, ?_⟩⟩
  · rw [invariant.pending label unresolved]
    simp only [Label.here, run]
    rfl
  · exact pc.trans invariant.length
  · intro other
    by_cases same : other = label
    · subst same
      simp [Assembly.replace, CodeHistory.here, Label.adr?, invariant.length]
    · simpa [Assembly.replace, CodeHistory.here, same] using invariant.address other
  · intro slot (member : slot ∈ h.slots)
    change c.word? slot.pos = _
    by_cases same : slot.label = label
    · have isOwn : slot ∈ h.slotsOf label := by simpa [slotsOf, same] using member
      rw [filled slot isOwn, invariant.length]
      simp [content, CodeHistory.here, same]
    · -- The slots of the label lie apart from those of another one.
      have kept (i : Nat) (covered : slot.Covers i) :
          ∀ other ∈ h.slotsOf label, ¬ other.Covers i := by
        intro other isOwn covered'
        obtain ⟨member', isLabel⟩ := own other isOwn
        have different : slot ≠ other := fun equal => same (equal ▸ isLabel)
        have symmetric : Std.Symm Slot.Apart := ⟨fun _ _ => Or.symm⟩
        rcases invariant.apart.forall member member' different with before | behind
        · rcases covered with rfl | rfl <;> rcases covered' with same | same <;> omega
        · rcases covered with rfl | rfl <;> rcases covered' with same | same <;> omega
      rw [word?_congr (others _ (kept _ (.inl rfl))) (others _ (kept _ (.inr rfl))),
        invariant.slot slot member]
      simp [content, CodeHistory.here, same]
  · intro i outside
    exact (others i fun slot member => outside slot (own slot member).1).trans
      (invariant.elsewhere i outside)
  · change c.farOffsets = _
    rw [far, invariant.far, invariant.length]
    simp only [CodeHistory.here, countP_append]
    omega
  · intro other unresolved'
    have different : other ≠ label := by
      rintro rfl
      simp [CodeHistory.here] at unresolved'
    have unresolved' : h.address other = none := by
      simpa [CodeHistory.here, different] using unresolved'
    simpa [Assembly.replace, different, slotsOf, CodeHistory.here]
      using invariant.pending other unresolved'

/-- What one operation does. -/
theorem Invariant.step {action : CodeAction}
    (unresolved : ∀ label, action.resolved? = some label → h.address label = none) :
    ∃ s', s.step action = .ok s' ∧ (h.step action).Invariant s' := by
  -- A jump is an opcode with the offset of its target behind it.
  have jump (op : Opcode) (label : Nat) : ((h.append [op.code]).target label).Invariant
      (s.replace label ((s.labels label).jump op s.code)) := by
    have opcode := (invariant.append [op.code]).target label
    rw [Assembly.mapCode, ← put_eq_append] at opcode
    exact opcode
  have keep (label : Nat) (c : CodeBuffer) :
      s.replace label (s.labels label, c) = ⟨c, s.labels⟩ := by
    simp [Assembly.replace]
  cases action with
  | put op =>
    refine ⟨_, rfl, ?_⟩
    rw [show (fun c : CodeBuffer => c.put op) = (·.append [op.code]) from
      funext fun c => c.put_eq_append op]
    exact invariant.append [op.code]
  | number width x => exact ⟨_, rfl, invariant.append _⟩
  | offset x => exact ⟨_, rfl, invariant.write x⟩
  | emit op operands => exact ⟨_, rfl, invariant.append _⟩
  | call x =>
    refine ⟨_, rfl, ?_⟩
    have called := (invariant.append [Opcode.call.code]).write (x.adr - (h.length + 3 : Nat))
    simpa [Assembly.mapCode, Operand.call, put_eq_append, CodeHistory.step,
      invariant.length, Nat.add_assoc] using called
  | clear => exact ⟨_, rfl, invariant.congr (s.mapCode (·.clearFarOffsets)) rfl rfl rfl⟩
  | target label => exact ⟨_, rfl, invariant.target label⟩
  | jump op label => exact ⟨_, rfl, jump op label⟩
  | jumpIfTrue comparison onTrue onFalse =>
    cases comparison with
    | none =>
      refine ⟨_, rfl, ?_⟩
      simp only [Assembly.replace, Function.update_eq_self]
      exact invariant
    | some comparison =>
      refine ⟨_, rfl, ?_⟩
      simp only [keep]
      exact jump comparison.jump onTrue
  | jumpIfFalse comparison onTrue onFalse =>
    cases comparison with
    | none =>
      refine ⟨_, rfl, ?_⟩
      simp only [Assembly.replace, Function.update_eq_self]
      exact invariant
    | some comparison =>
      refine ⟨_, rfl, ?_⟩
      simp only [keep]
      exact jump comparison.negate.jump onFalse
  | here label =>
    obtain ⟨result, run, invariant'⟩ := invariant.here (unresolved label rfl)
    refine ⟨_, ?_, invariant'⟩
    rw [Assembly.step, run]
    rfl

end

/-- Only resolving a label gives it an address. -/
theorem address_step (h : CodeHistory) {action : CodeAction}
    (other : action.resolved? ≠ some label) : (h.step action).address label = h.address label := by
  cases action with
  | here resolved =>
    have different : label ≠ resolved := fun same => other (congrArg some same.symm)
    simp [CodeHistory.step, CodeHistory.here, different]
  | jumpIfTrue comparison _ _ => cases comparison <;> rfl
  | jumpIfFalse comparison _ _ => cases comparison <;> rfl
  | _ => rfl

/-- Operations one after the other, when no label that they resolve is resolved before or twice. -/
theorem Invariant.run (invariant : h.Invariant s) {actions : List CodeAction}
    (once : (actions.filterMap CodeAction.resolved?).Nodup)
    (unresolved : ∀ label ∈ actions.filterMap CodeAction.resolved?, h.address label = none) :
    ∃ s', s.run actions = .ok s' ∧ (actions.foldl CodeHistory.step h).Invariant s' := by
  induction actions generalizing h s with
  | nil => exact ⟨s, rfl, invariant⟩
  | cons action rest ih =>
    have first : ∀ label, action.resolved? = some label → h.address label = none := by
      intro label resolves
      exact unresolved label (by simp [resolves])
    have later : ∀ label ∈ rest.filterMap CodeAction.resolved?, action.resolved? ≠ some label := by
      intro label member resolves
      rw [filterMap_cons_some resolves] at once
      exact (nodup_cons.mp once).1 member
    have rest_ : (rest.filterMap CodeAction.resolved?).Sublist
        ((action :: rest).filterMap CodeAction.resolved?) :=
      (sublist_cons_self action rest).filterMap _
    obtain ⟨s1, step, invariant1⟩ := invariant.step first
    obtain ⟨s', run, invariant'⟩ := ih invariant1 (once.sublist rest_) fun label member => by
      rw [h.address_step (later label member)]
      exact unresolved label (rest_.subset member)
    refine ⟨s', ?_, invariant'⟩
    rw [Assembly.run, step]
    exact run

end CodeHistory

/-- Code and labels agree with their history after every operation, in whatever order labels are
named and resolved, as long as none is resolved twice. -/
theorem Assembly.run_describes (actions : List CodeAction)
    (once : (actions.filterMap CodeAction.resolved?).Nodup) (k : Nat) :
    ∃ s, Assembly.start.run (actions.take k) = .ok s ∧
      (CodeHistory.ofActions (actions.take k)).Describes s := by
  have part : ((actions.take k).filterMap CodeAction.resolved?).Sublist
      (actions.filterMap CodeAction.resolved?) := (List.take_sublist k actions).filterMap _
  obtain ⟨s, run, invariant⟩ := CodeHistory.invariant_start.run (once.sublist part) fun _ _ => rfl
  exact ⟨s, run, invariant.toDescribes⟩

/-- Two labels with jumps to each of them before and after it is resolved. -/
def crossingJumps : List CodeAction :=
  [.here 0, .jump .jmp 1, .jumpIfFalse (some .lt) 0 2, .offset 40000, .here 1, .emit .enter [0, 1],
    .jumpIfTrue (some .eq) 0 2, .here 2, .target 1, .clear, .jump .jmp 3]

theorem Assembly.run_describes_crossing :
    (crossingJumps.filterMap CodeAction.resolved?).Nodup ∧
      ∃ s, Assembly.start.run crossingJumps = .ok s ∧
        (CodeHistory.ofActions crossingJumps).Describes s :=
  ⟨by decide, Assembly.run_describes crossingJumps (by decide) crossingJumps.length⟩

end MicroJava

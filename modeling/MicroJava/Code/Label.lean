import MicroJava.Code.Buffer
import MicroJava.Fault

/-! # Jump targets

A label stands for an address that jumps can name before it is known. While it is pending it
remembers the slots that wait for it; resolving it fills them in.
-/

namespace MicroJava

/-- A jump target. -/
inductive Label where
  /-- Not known yet; the slots are waiting for it, the newest first. -/
  | pending (slots : List Nat)
  | resolved (adr : Nat)
deriving DecidableEq, Repr, Inhabited

namespace Label

/-- A label that no jump has named. -/
def fresh : Label := .pending []

/-- The address of a resolved label. -/
def adr? : Label → Option Nat
  | pending _ => none
  | resolved adr => some adr

/-- Adds the offset from the end of a jump to the label, or a slot for it. -/
def put (label : Label) (c : CodeBuffer) : Label × CodeBuffer :=
  match label with
  | resolved adr => (label, c.putOffset (CodeBuffer.offset adr (c.pc + 2)))
  | pending slots => (.pending (c.pc :: slots), c.reserve)

/-- Fills in the slots that wait for a label with the distance to `adr`. -/
def patchAll (adr : Nat) : List Nat → CodeBuffer → Except Fault CodeBuffer
  | [], c => .ok c
  | pos :: slots, c =>
    if c.hasSlot pos then patchAll adr slots (c.patch pos (CodeBuffer.offset adr (pos + 2)))
    else .error (.patchOutsideCode pos)

/-- Lets a label stand for the end of the code and fills in the slots that wait for it. -/
def here (label : Label) (c : CodeBuffer) : Except Fault (Label × CodeBuffer) :=
  match label with
  | resolved adr => .error (.labelResolved adr)
  | pending slots =>
    let adr := c.pc
    (patchAll adr slots c).map fun c => (.resolved adr, c)

/-- Adds a jump to the label. -/
def jump (label : Label) (op : Opcode) (c : CodeBuffer) : Label × CodeBuffer :=
  label.put (c.put op)

end Label

/-- The outcome of a chain of comparisons, expressed as jumps: the last comparison is still to be
tested, and the labels lead to where the whole condition holds and to where it does not. -/
structure Condition where
  comparison : Option Comparison := none
  onTrue : Label := .fresh
  onFalse : Label := .fresh
deriving DecidableEq, Repr

namespace Condition

/-- Adds a jump to where the condition holds, taken when the last comparison does. -/
def jumpIfTrue (x : Condition) (c : CodeBuffer) : Condition × CodeBuffer :=
  match x.comparison with
  | none => (x, c)
  | some comparison =>
    let (label, c) := x.onTrue.jump comparison.jump c
    ({ x with onTrue := label }, c)

/-- Adds a jump to where the condition fails, taken when the last comparison does. -/
def jumpIfFalse (x : Condition) (c : CodeBuffer) : Condition × CodeBuffer :=
  match x.comparison with
  | none => (x, c)
  | some comparison =>
    let (label, c) := x.onFalse.jump comparison.negate.jump c
    ({ x with onFalse := label }, c)

end Condition

end MicroJava

/-! # Broken contracts

Operations of the library have preconditions that their callers are to keep: a label is resolved
once, a scope is closed only while one is open, a reference names something that exists. A fault
says which precondition was broken. It is no problem of a source text and never shown as one.
-/

namespace MicroJava

/-- A precondition that a caller did not keep. -/
inductive Fault where
  /-- A label was resolved although it already stands for an address. -/
  | labelResolved (adr : Nat)
  /-- A scope was closed while none was open. -/
  | scopeUnderflow
  /-- The current scope was needed while none was open. -/
  | noOpenScope
  /-- A loop was left while none was entered. -/
  | noOpenLoop
  /-- An entity was named that does not exist. -/
  | unknownEntity (index : Nat)
  /-- A type was named that does not exist. -/
  | unknownType (index : Nat)
  /-- A place was to be overwritten that lies outside the code. -/
  | patchOutsideCode (pos : Nat)
deriving DecidableEq, Repr

/-- The wording of a fault. -/
def Fault.message : Fault → String
  | labelResolved adr => s!"label already resolved at {adr}"
  | scopeUnderflow => "closed more scopes than were opened"
  | noOpenScope => "symbol table has no open scope"
  | noOpenLoop => "loop exit stack underflow"
  | unknownEntity index => s!"no entity has the index {index}"
  | unknownType index => s!"no type has the index {index}"
  | patchOutsideCode pos => s!"no code at position {pos}"

end MicroJava

/-! # Capacity limits

How many variables a program may have. A limit can be lowered, never raised above what the operands
of the instruction set can address.
-/

namespace MicroJava

/-- The limits that a program has to respect. -/
structure Limits where
  /-- Most global variables. -/
  globals : Nat
  /-- Most fields of one class. -/
  fields : Nat
  /-- Most parameters and local variables of one method. -/
  locals : Nat
deriving DecidableEq, Repr

/-- One of the limits. -/
inductive Limit where
  | globals | fields | locals
deriving DecidableEq, Repr

namespace Limit

/-- Every limit once, in the order in which they are checked. -/
def all : List Limit := [.globals, .fields, .locals]

/-- The name of a limit in settings files and messages. -/
def name : Limit → String
  | globals => "max_globals"
  | fields => "max_fields"
  | locals => "max_locals"

/-- The limit with a given name. -/
def ofName? (name : String) : Option Limit :=
  all.find? fun limit => limit.name == name

end Limit

namespace Limits

/-- The value of one limit. -/
def get (limits : Limits) : Limit → Nat
  | .globals => limits.globals
  | .fields => limits.fields
  | .locals => limits.locals

/-- The limits with one of them replaced. -/
def set (limits : Limits) (value : Nat) : Limit → Limits
  | .globals => { limits with globals := value }
  | .fields => { limits with fields := value }
  | .locals => { limits with locals := value }

/-- What the instruction set can address: global variables and fields through two signed bytes,
local variables through one. -/
def supported : Limits := ⟨0x7fff, 0x7fff, 0x7f⟩

/-- The limits with each one lowered to what is supported. -/
def clamped (limits : Limits) : Limits :=
  ⟨min limits.globals supported.globals, min limits.fields supported.fields,
    min limits.locals supported.locals⟩

end Limits

/-- A limit that is larger than what is supported. -/
structure LimitExcess where
  limit : Limit
  value : Nat
deriving DecidableEq, Repr

/-- The wording of an excess. -/
def LimitExcess.message (e : LimitExcess) : String :=
  s!"{e.limit.name} is {e.value}, at most {Limits.supported.get e.limit} is supported"

/-- The first limit, if any, that is larger than what is supported. -/
def Limits.excess? (limits : Limits) : Option LimitExcess :=
  (Limit.all.find? fun limit => Limits.supported.get limit < limits.get limit).map
    fun limit => ⟨limit, limits.get limit⟩

end MicroJava

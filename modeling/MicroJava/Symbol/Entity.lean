import MicroJava.Symbol.TypeTable

/-! # Declared entities

What a name can stand for: a constant, a variable, a type, a method or the program itself.
-/

namespace MicroJava

/-- The sort of an entity. -/
inductive EntityKind where
  /-- A constant. -/
  | con
  /-- A global or local variable, a parameter or a field. -/
  | var
  | type
  | method
  | program
deriving DecidableEq, Repr, Inhabited

/-- What a name stands for. -/
structure Entity where
  kind : EntityKind
  name : String
  type : TypeId
  /-- The value of a constant. -/
  value : Int32 := 0
  /-- The slot of a variable or the address of a method. -/
  adr : Int := 0
  /-- How deep the declaration is nested; zero is global. -/
  level : Nat := 0
  /-- The number of parameters of a method. -/
  parameterCount : Nat := 0
  /-- Whether the last parameter of a method collects any number of arguments. -/
  hasVarArgs : Bool := false
  /-- The declarations of a method, its parameters first, or those of the program. -/
  locals : List EntityId := []
deriving DecidableEq, Repr, Inhabited

/-- The parameters of a method, in order. -/
def Entity.parameters (e : Entity) : List EntityId := e.locals.take e.parameterCount

end MicroJava

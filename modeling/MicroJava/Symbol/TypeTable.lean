/-! # Types of a program

Types are kept in a table and named by their index. The scalar types and the type of `null` are the
same in every table and equal only to themselves, and so is each class. Every mention of an array
makes a new entry, and arrays are equal when their element types are.
-/

namespace MicroJava

/-- The name of an entity in a symbol table. -/
structure EntityId where
  index : Nat
deriving DecidableEq, Repr, Inhabited

/-- The name of a type in a type table. -/
structure TypeId where
  index : Nat
deriving DecidableEq, Repr, Inhabited

namespace TypeId

/-- No type: what a `void` method returns. An array of it stands for an array of anything. -/
def none : TypeId := ⟨0⟩

/-- The type of integers. -/
def int : TypeId := ⟨1⟩

/-- The type of characters. -/
def char : TypeId := ⟨2⟩

/-- The type of `null`. -/
def null : TypeId := ⟨3⟩

end TypeId

/-- The sort of a type. -/
inductive TypeKind where
  | none | int | char | array | classType
deriving DecidableEq, Repr, Inhabited

/-- What a type table knows about a type. -/
structure TypeInfo where
  kind : TypeKind
  /-- The type of the elements of an array. -/
  elem : Option TypeId := .none
  /-- The fields of a class, in the order of their declaration. -/
  fields : List EntityId := []
deriving DecidableEq, Repr, Inhabited

/-- The types of a program. -/
structure TypeTable where
  infos : Array TypeInfo
deriving DecidableEq, Repr

namespace TypeTable

/-- The table that has only what every program has. The type of `null` counts as a class. -/
def initial : TypeTable :=
  ⟨#[{ kind := .none }, { kind := .int }, { kind := .char }, { kind := .classType }]⟩

/-- The number of types. -/
def size (t : TypeTable) : Nat := t.infos.size

/-- Whether a type is in the table. -/
def contains (t : TypeTable) (a : TypeId) : Bool := a.index < t.size

/-- What is known about a type. -/
def info (t : TypeTable) (a : TypeId) : TypeInfo := t.infos.getD a.index default

/-- Adds a type. -/
def add (t : TypeTable) (info : TypeInfo) : TypeId × TypeTable :=
  (⟨t.size⟩, ⟨t.infos.push info⟩)

/-- Adds an array type. -/
def addArray (t : TypeTable) (elem : TypeId) : TypeId × TypeTable :=
  t.add { kind := .array, elem := some elem }

/-- Adds a class without fields. -/
def addClass (t : TypeTable) : TypeId × TypeTable := t.add { kind := .classType }

/-- Replaces the fields of a type. -/
def setFields (t : TypeTable) (a : TypeId) (fields : List EntityId) : TypeTable :=
  ⟨t.infos.modify a.index fun info => { info with fields }⟩

/-- The sort of a type. -/
def kind (t : TypeTable) (a : TypeId) : TypeKind := (t.info a).kind

/-- The type of the elements of an array, and no type for anything else. -/
def elemType (t : TypeTable) (a : TypeId) : TypeId := (t.info a).elem.getD .none

/-- The fields of a class. -/
def fields (t : TypeTable) (a : TypeId) : List EntityId := (t.info a).fields

/-- Whether a type is an array. -/
def isArray (t : TypeTable) (a : TypeId) : Bool := t.kind a == .array

/-- Whether a type is a class. The type of `null` counts as one. -/
def isClass (t : TypeTable) (a : TypeId) : Bool := t.kind a == .classType

/-- Whether values of a type are references. -/
def isReference (t : TypeTable) (a : TypeId) : Bool := t.isArray a || t.isClass a

/-- Compares two types after taking off at most `fuel` array layers. -/
def equalWithin (t : TypeTable) : (fuel : Nat) → TypeId → TypeId → Bool
  | 0, a, b => a == b
  | fuel + 1, a, b =>
    if t.isArray a && t.isArray b then t.equalWithin fuel (t.elemType a) (t.elemType b)
    else a == b

/-- Whether two types are equal. An array comes after its element type in the table, so no type has
more layers than the table has entries. -/
def equal (t : TypeTable) (a b : TypeId) : Bool := t.equalWithin t.size a b

/-- Whether values of two types can be compared. -/
def comparable (t : TypeTable) (a b : TypeId) : Bool :=
  t.equal a b || (a == .null && t.isReference b) || (b == .null && t.isReference a)

/-- Whether a value of one type can be stored where the other is expected. -/
def assignable (t : TypeTable) (source target : TypeId) : Bool :=
  t.equal source target || (source == .null && t.isReference target) ||
    (t.isArray source && t.isArray target && t.elemType target == .none)

end TypeTable

end MicroJava

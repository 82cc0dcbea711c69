import MicroJava.Proofs.Syntax.Evaluation
import MicroJava.Symbol.Table

/-! # What expressions read from a memory

The meaning of expressions that only read: numbers, constants, variables, fields and array elements,
with signs, operators and parentheses. The symbol table says what names mean, the memory has the
values. Everything is evaluated from left to right, up to the first fault.
-/

namespace MicroJava

/-- What expressions can read. -/
structure Memory where
  values : EntityId → Int32
  /-- The cells of the object or array that a reference means; `null` means none. An object has a
  cell for each field of its class, in order. -/
  object? : Int32 → Option (List Int32)

/-- A cell of an object or array. -/
def Memory.cell (μ : Memory) (reference : Int32) (index : Int) : Except MachineFault Int32 :=
  match μ.object? reference with
  | some cells =>
    match cell? cells index with
    | some value => .ok value
    | none => .error .indexOutOfBounds
  | none => .error .nullReference

namespace SymbolTable

/-- The field of a class that has a name. -/
def field? (t : SymbolTable) (type : TypeId) (name : String) : Option EntityId :=
  t.search (t.types.fields type).reverse name

/-- Whether a name means a constant or a variable. -/
def namesValue (t : SymbolTable) (name : String) : Bool :=
  (t.lookup? name).any fun id => (t.entity id).kind == .con || (t.entity id).kind == .var

/-- The value of a constant or variable. -/
def valueIn (t : SymbolTable) (μ : Memory) (id : EntityId) : Int32 :=
  if (t.entity id).kind = .con then (t.entity id).value else μ.values id

end SymbolTable

namespace Syntax

/-- The result of an operator. It is a fault if there is no quotient. -/
def ofQuotient : Option Int32 → Except MachineFault Int32
  | some value => .ok value
  | none => .error .divideByZero

/-- What can go wrong in an expression that only reads. -/
def readingFaults : List MachineFault := [.nullReference, .indexOutOfBounds, .divideByZero]

section

variable (t : SymbolTable)

mutual

/-- Whether an expression neither calls nor creates anything, but only reads. -/
def Expr.isReading : Expr → Bool
  | .mk _ first rest => first.isReading && Term.chainIsReading rest

def Term.chainIsReading : List (AddOp × Term) → Bool
  | [] => true
  | (_, item) :: rest => item.isReading && Term.chainIsReading rest

def Term.isReading : Term → Bool
  | .mk first rest => first.isReading && Factor.chainIsReading rest

def Factor.chainIsReading : List (MulOp × Factor) → Bool
  | [] => true
  | (_, item) :: rest => item.isReading && Factor.chainIsReading rest

def Factor.isReading : Factor → Bool
  | .value (.mk name selectors) => t.namesValue name && Selector.listIsReading selectors
  | .number _ => true
  | .paren e => e.isReading
  | _ => false

def Selector.listIsReading : List Selector → Bool
  | [] => true
  | .field _ :: rest => Selector.listIsReading rest
  | .index e :: rest => e.isReading && Selector.listIsReading rest

end

variable (μ : Memory)

mutual

/-- The value of an expression, or the first fault on the way to it. -/
def Expr.evaluate : Expr → Except MachineFault Int32
  | .mk negated first rest => do
    let value ← first.evaluate
    Term.evaluateChain (if negated then -value else value) rest

def Term.evaluateChain : Int32 → List (AddOp × Term) → Except MachineFault Int32
  | value, [] => .ok value
  | value, (op, item) :: rest => do
    let other ← item.evaluate
    let value ← ofQuotient (op.apply value other)
    Term.evaluateChain value rest

def Term.evaluate : Term → Except MachineFault Int32
  | .mk first rest => do
    let value ← first.evaluate
    Factor.evaluateChain value rest

def Factor.evaluateChain : Int32 → List (MulOp × Factor) → Except MachineFault Int32
  | value, [] => .ok value
  | value, (op, item) :: rest => do
    let other ← item.evaluate
    let value ← ofQuotient (op.apply value other)
    Factor.evaluateChain value rest

/-- The value of a factor. Names that mean no value have none, nor do other factors. -/
def Factor.evaluate : Factor → Except MachineFault Int32
  | .value (.mk name selectors) =>
    match t.lookup? name with
    | some id => Selector.select (t.entity id).type (t.valueIn μ id) selectors
    | none => .error .noVariable
  | .number value => .ok value
  | .paren e => e.evaluate
  | _ => .error .noVariable

/-- What selectors select from a value of a type. An index is evaluated before it is looked whether
there is an array. -/
def Selector.select : TypeId → Int32 → List Selector → Except MachineFault Int32
  | _, value, [] => .ok value
  | type, value, .field name :: rest =>
    match t.field? type name with
    | some id => do
      let value ← μ.cell value ((t.types.fields type).idxOf id)
      Selector.select (t.entity id).type value rest
    | none => .error .noVariable
  | type, value, .index e :: rest => do
    let index ← e.evaluate
    let value ← μ.cell value index.toInt
    Selector.select (t.types.elemType type) value rest

end

end

end Syntax

end MicroJava

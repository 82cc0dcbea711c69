import MicroJava.Compiler.Expression
import MicroJava.Proofs.Syntax.Memory

/-! # What expressions do

The meaning of all expressions, also of those that call methods or create objects: everything is
evaluated from left to right and can change the world on the way. The symbol table says what names
mean, and `locals` are the local variables of the method around an expression, which no expression
changes. What methods do is given.

Arguments after `#` become the elements of a new array. The array has its reference before they are
evaluated, but no cells, so an expression that looked into it would have no value.
-/

namespace MicroJava

/-- What an expression can change. -/
structure World where
  globals : List Int32
  /-- The cells of all objects and arrays, in the order in which they were made. -/
  heap : List (Option (List Int32))
  output : List Char

/-- A computation in a world. It has no result if it meets a fault or does not end. -/
abbrev Eval (α : Type) := StateT World Option α

namespace World

/-- A result that may not exist. -/
def result {α : Type} (value : Option α) : Eval α := fun w => value.map (·, w)

/-- The cells of the object or array that a reference means. -/
def object? (w : World) (reference : Int32) : Option (List Int32) :=
  if reference.toInt ≤ 0 then none else w.heap[reference.toInt.toNat - 1]?.join

/-- Reads a cell of an object or array. -/
def readCell (reference : Int32) (index : Int) : Eval Int32 := fun w =>
  ((w.object? reference).bind (cell? · index)).map (·, w)

def arrayLength (reference : Int32) : Eval Int32 := fun w =>
  (w.object? reference).map fun cells => (Int32.ofNat cells.length, w)

/-- Makes an object or array and yields the reference to it. -/
def allocate (size : Nat) : Eval Int32 := fun w =>
  some (Int32.ofNat (w.heap.length + 1),
    { w with heap := w.heap ++ [some (List.replicate size 0)] })

/-- Makes room for an array whose elements are still to be computed, if there is a reference left. -/
def reserve : Eval Nat := fun w =>
  if w.heap.length < 0x7fffffff then some (w.heap.length, { w with heap := w.heap ++ [none] })
  else none

/-- Gives an array its elements. -/
def fill (index : Nat) (cells : List Int32) : Eval Unit := fun w =>
  some ((), { w with heap := w.heap.set index (some cells) })

end World

namespace SymbolTable

/-- The type of the elements that a method collects, if it has a parameter that collects arguments. -/
def collects? (t : SymbolTable) (method : EntityId) : Option TypeId :=
  (Compile.splitParameters (t.entity method)).2.map fun id => t.types.elemType (t.entity id).type

/-- The value of a constant or variable. -/
def read (t : SymbolTable) (locals : List Int32) (id : EntityId) : Eval Int32 := fun w =>
  match (t.entity id).kind with
  | .con => some ((t.entity id).value, w)
  | .var => (cell? (if (t.entity id).level = 0 then w.globals else locals) (t.entity id).adr).map (·, w)
  | .type | .method | .program => none

end SymbolTable

/-- What an array keeps of a value. Characters are bytes. -/
def storedAs (type : TypeId) (value : Int32) : Int32 :=
  if type = .char then value &&& 0xff else value

namespace Syntax

/-- What the methods of a program do with arguments. -/
abbrev Calls := EntityId → List Int32 → Eval (Option Int32)

/-- Calls a method. Predeclared methods are the same in every program. -/
def invoke (calls : Calls) (method : EntityId) (values : List Int32) : Eval (Option Int32) :=
  if method = SymbolTable.chr ∨ method = SymbolTable.ord then
    World.result (values.head?.map some)
  else if method = SymbolTable.len then do
    let array ← World.result values.head?
    let length ← World.arrayLength array
    return some length
  else calls method values

section

variable (t : SymbolTable) (calls : Calls) (locals : List Int32)

mutual

def Expr.run : Expr → Eval Int32
  | .mk negated first rest => do
    let value ← first.run
    Term.runChain (if negated then -value else value) rest

def Term.runChain : Int32 → List (AddOp × Term) → Eval Int32
  | value, [] => pure value
  | value, (op, item) :: rest => do
    let other ← item.run
    let value ← World.result (op.apply value other)
    Term.runChain value rest

def Term.run : Term → Eval Int32
  | .mk first rest => do
    let value ← first.run
    Factor.runChain value rest

def Factor.runChain : Int32 → List (MulOp × Factor) → Eval Int32
  | value, [] => pure value
  | value, (op, item) :: rest => do
    let other ← item.run
    let value ← World.result (op.apply value other)
    Factor.runChain value rest

/-- Evaluates a factor. The name of a method has a value only where it is called. -/
def Factor.run : Factor → Eval Int32
  | .value (.mk name selectors) => do
    let id ← World.result (t.lookup? name)
    let value ← t.read locals id
    Selector.runAll (t.entity id).type value selectors
  | .call (.mk name _) args => do
    let method ← World.result (t.lookup? name)
    let values ← args.run method
    let result ← invoke calls method values
    World.result result
  | .number value | .character value => pure value
  | .object name => do
    let id ← World.result (t.lookup? name)
    World.allocate (t.types.fields (t.entity id).type).length
  | .array _ size => do
    let count ← size.run
    World.allocate count.toInt.toNat
  | .paren e => e.run

/-- What selectors select from a value of a type. -/
def Selector.runAll : TypeId → Int32 → List Selector → Eval Int32
  | _, value, [] => pure value
  | type, value, .field name :: rest => do
    let id ← World.result (t.field? type name)
    let value ← World.readCell value (t.entity id).adr
    Selector.runAll (t.entity id).type value rest
  | type, value, .index e :: rest => do
    let index ← e.run
    let value ← World.readCell value index.toInt
    Selector.runAll (t.types.elemType type) value rest

/-- Evaluates the arguments of a method: those for its fixed parameters one by one, and behind them
the array of those that it collects. -/
def Arguments.run : Arguments → EntityId → Eval (List Int32)
  | .mk fixed extra, method => do
    let values ← Expr.runAll fixed
    match t.collects? method, extra with
    | none, _ => return values
    | some _, none => do
      let array ← World.allocate 0
      return values ++ [array]
    | some elem, some extra => do
      let array ← extra.run elem
      return values ++ [array]

/-- Evaluates the arguments after `#` for an array of elements of a type. -/
def VarArguments.run : VarArguments → TypeId → Eval Int32
  | .mk _ es, elem => do
    let index ← World.reserve
    let values ← Expr.runAll es
    World.fill index (values.map (storedAs elem))
    return Int32.ofNat (index + 1)

def Expr.runAll : List Expr → Eval (List Int32)
  | [] => pure []
  | e :: rest => do
    let value ← e.run
    let values ← Expr.runAll rest
    return value :: values

end

end

end Syntax

end MicroJava

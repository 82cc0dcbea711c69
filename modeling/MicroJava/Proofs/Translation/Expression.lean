import MicroJava.Compiler.Statement
import MicroJava.Proofs.Code.Access
import MicroJava.Proofs.Syntax.Tree

/-! # What expressions compile to

`Expr.Compiles` relates an expression to the items that the compiler adds for it and to the operand
that says where its value is then. The rules state every condition that keeps the compiler from
reporting a problem. The symbol table can change, since `new` adds array types.

The rules for the parts of an expression take the relation for the expressions nested in it, and the
number of levels ties the knot, as it does in the compiler.
-/

namespace MicroJava

/-- Adds an array type to a symbol table. -/
def SymbolTable.addArray (t : SymbolTable) (elem : TypeId) : TypeId × SymbolTable :=
  ((t.types.addArray elem).1, { t with types := (t.types.addArray elem).2 })

namespace Operand

/-- The operand that an uncalled designator is as a value. -/
def asValue (x : Operand) : Operand := if x.kind = .method then { x with kind := .nothing } else x

/-- The items that call a method whose arguments are on the stack. -/
def callItems (x : Operand) (id : EntityId) : List Item :=
  if id = SymbolTable.chr ∨ id = SymbolTable.ord then []
  else if id = SymbolTable.len then [.plain .arrayLength [] ⟨rfl, rfl⟩]
  else [.call x.adr]

@[simp] theorem straight_callItems (x : Operand) (id : EntityId) :
    Items.Straight (x.callItems id) := by
  unfold callItems
  split
  · simp
  · split <;> simp

/-- The items that change the sign of an operand. -/
def negateItems (x : Operand) : List Item :=
  if x.kind = .con then [] else x.loadItems ++ [.plain .neg [] ⟨rfl, rfl⟩]

@[simp] theorem straight_negateItems (x : Operand) : Items.Straight x.negateItems := by
  unfold negateItems
  split <;> simp

/-- The operand with its sign changed. -/
def negated (x : Operand) : Operand :=
  if x.kind = .con then { x with value := -x.value } else x.pushed

end Operand

namespace Syntax

def AddOp.opcode : AddOp → Opcode
  | plus => .add
  | minus => .sub

def AddOp.item (op : AddOp) : Item := .plain op.opcode [] (by cases op <;> exact ⟨rfl, rfl⟩)

def MulOp.item : MulOp → Item
  | times => .plain .mul [] ⟨rfl, rfl⟩
  | slash => .plain .div [] ⟨rfl, rfl⟩
  | percent => .plain .rem [] ⟨rfl, rfl⟩

/-- What it means that a phrase compiles, from one symbol table to another, to items and to an
operand. -/
abbrev Translation (φ : Type) :=
  SymbolTable → φ → List Item → Operand → SymbolTable → Prop

/-! ## Designators -/

/-- What selectors make of an operand. -/
inductive Selector.Apply (nested : Translation Expr) :
    SymbolTable → Operand → List Selector → List Item → Operand → SymbolTable → Prop where
  | nil {t x} : Apply nested t x [] [] x t
  | field {t x name id rest items y t'}
      (isClass : t.types.isClass x.type = true)
      (valued : x.isValueless = false)
      (found : t.search (t.types.fields x.type).reverse name = some id)
      (more : Apply nested t
        { x with kind := .field, type := (t.entity id).type, adr := (t.entity id).adr }
        rest items y t') :
      Apply nested t x (.field name :: rest) (x.loadItems ++ items) y t'
  | index {t x e items₁ index t₁ rest items₂ y t'}
      (storable : x.isVariable = true)
      (inner : nested t e items₁ index t₁)
      (int : index.type = .int)
      (valued : index.isValueless = false)
      (isArray : t₁.types.isArray x.type = true)
      (more : Apply nested t₁
        { x with kind := .element, type := t₁.types.elemType x.type } rest items₂ y t') :
      Apply nested t x (.index e :: rest)
        (x.loadItems ++ items₁ ++ index.loadItems ++ items₂) y t'

/-- What a designator compiles to. -/
inductive Designator.Compiles (nested : Translation Expr) : Translation Designator where
  | mk {t name id selectors items x t'}
      (found : t.lookup? name = some id)
      (denotes : Operand.kindOf (t.entity id) ≠ .nothing)
      (selected : Selector.Apply nested t (Operand.ofEntity id (t.entity id)).result selectors
        items x t') :
      Compiles nested t (.mk name selectors) items x t'

/-! ## Calls -/

/-- What arguments that fit the given parameters compile to. -/
inductive Expr.Fit (nested : Translation Expr) :
    SymbolTable → List EntityId → List Expr → List Item → SymbolTable → Prop where
  | nil {t} : Fit nested t [] [] [] t
  | cons {t parameter parameters e rest items₁ x t₁ items₂ t'}
      (inner : nested t e items₁ x t₁)
      (valued : x.isValueless = false)
      (fits : t₁.types.assignable x.type (t₁.entity parameter).type = true)
      (more : Fit nested t₁ parameters rest items₂ t') :
      Fit nested t (parameter :: parameters) (e :: rest) (items₁ ++ x.loadItems ++ items₂) t'

/-- What values compile to that fill an array from an index on. -/
inductive Expr.Fill (nested : Translation Expr) :
    SymbolTable → Nat → TypeId → List Expr → List Item → SymbolTable → Prop where
  | nil {t index elem} : Fill nested t index elem [] [] t
  | cons {t index elem e rest items₁ x t₁ elem' items₂ t'}
      (inner : nested t e items₁ x t₁)
      (decided : elem' = if elem = .none then x.type else elem)
      (fits : t₁.types.assignable x.type elem' = true)
      (valued : x.isValueless = false)
      (more : Fill nested t₁ (index + 1) elem' rest items₂ t') :
      Fill nested t index elem (e :: rest)
        ([.plain .dup [] ⟨rfl, rfl⟩, .const (Int32.ofNat index).toInt] ++ items₁ ++ x.loadItems ++
          [.storeElement elem'] ++ items₂) t'

/-- What the arguments after `#` compile to, if the method has a parameter that collects them. -/
inductive VarArguments.Collect (nested : Translation Expr) :
    SymbolTable → Option EntityId → Option VarArguments → List Item → SymbolTable → Prop where
  | none {t} : Collect nested t none none [] t
  | omitted {t parameter} :
      Collect nested t (some parameter) none
        [.const 0, .newArray (t.types.elemType (t.entity parameter).type)] t
  | filled {t parameter size values items t'}
      (fill : Expr.Fill nested t 0 (t.types.elemType (t.entity parameter).type) values items t')
      (count : (values.length : Int) = size.toInt) :
      Collect nested t (some parameter) (some (.mk size values))
        ([.const size.toInt, .newArray (t.types.elemType (t.entity parameter).type)] ++ items) t'

/-- What the arguments of a call of a method compile to. -/
inductive Arguments.Pass (nested : Translation Expr) :
    SymbolTable → EntityId → Arguments → List Item → SymbolTable → Prop where
  | mk {t id fixed extra items₁ t₁ items₂ t'}
      (fit : Expr.Fit nested t (Compile.splitParameters (t.entity id)).1 fixed items₁ t₁)
      (collect : VarArguments.Collect nested t₁ (Compile.splitParameters (t.entity id)).2 extra
        items₂ t') :
      Pass nested t id (.mk fixed extra) (items₁ ++ items₂) t'

/-! ## Factors, terms and sums -/

/-- What a factor compiles to. -/
inductive Factor.Compiles (nested : Translation Expr) : Translation Factor where
  | value {t d items x t'} (designator : d.Compiles nested t items x t') :
      Compiles nested t (.value d) items x.asValue t'
  | call {t d items₁ x t₁ id args items₂ t'}
      (designator : d.Compiles nested t items₁ x t₁)
      (isMethod : x.kind = .method)
      (method : x.method = some id)
      (result : x.type ≠ .none)
      (arguments : args.Pass nested t₁ id items₂ t') :
      Compiles nested t (.call d args) (items₁ ++ items₂ ++ x.callItems id) x.pushed t'
  | number {t value} : Compiles nested t (.number value) [] (.number value) t
  | character {t value} : Compiles nested t (.character value) [] (.character value) t
  | object {t name id}
      (found : t.lookup? name = some id)
      (isType : (t.entity id).kind = .type)
      (isClass : t.types.isClass (t.entity id).type = true) :
      Compiles nested t (.object name)
        [.plain .new [(t.types.fields (t.entity id).type).length] ⟨rfl, rfl⟩]
        (.onStack (t.entity id).type) t
  | array {t name id e items size t₁}
      (found : t.lookup? name = some id)
      (isType : (t.entity id).kind = .type)
      (inner : nested t e items size t₁)
      (int : size.type = .int)
      (valued : size.isValueless = false) :
      Compiles nested t (.array name e)
        (items ++ size.loadItems ++ [.newArray (t.entity id).type])
        (.onStack (t₁.addArray (t.entity id).type).1) (t₁.addArray (t.entity id).type).2
  | paren {t e items x t'} (inner : nested t e items x t') :
      Compiles nested t (.paren e) items x t'

/-- What operators and further operands make of an operand. -/
inductive Chained {Op φ : Type} (item : Op → Item) (operand : Translation φ) :
    SymbolTable → Operand → List (Op × φ) → List Item → Operand → SymbolTable → Prop where
  | nil {t x} : Chained item operand t x [] [] x t
  | cons {t x op e items₁ y t₁ rest items₂ z t'}
      (valued : x.isValueless = false)
      (inner : operand t e items₁ y t₁)
      (ints : x.type = .int ∧ y.type = .int)
      (valued' : y.isValueless = false)
      (more : Chained item operand t₁ x.pushed rest items₂ z t') :
      Chained item operand t x ((op, e) :: rest)
        (x.loadItems ++ items₁ ++ y.loadItems ++ [item op] ++ items₂) z t'

/-- What a term compiles to. -/
inductive Term.Compiles (nested : Translation Expr) : Translation Term where
  | mk {t first rest items₁ x t₁ items₂ y t'}
      (first_ : first.Compiles nested t items₁ x t₁)
      (chained : Chained MulOp.item (Factor.Compiles nested) t₁ x rest items₂ y t') :
      Compiles nested t (.mk first rest) (items₁ ++ items₂) y t'

/-- What an expression compiles to, given the relation for those nested in it. -/
inductive Expr.CompilesIn (nested : Translation Expr) : Translation Expr where
  | positive {t first rest items₁ x t₁ items₂ y t'}
      (first_ : first.Compiles nested t items₁ x t₁)
      (chained : Chained AddOp.item (Term.Compiles nested) t₁ x rest items₂ y t') :
      CompilesIn nested t (.mk false first rest) (items₁ ++ items₂) y t'
  | negative {t first rest items₁ x t₁ items₂ y t'}
      (first_ : first.Compiles nested t items₁ x t₁)
      (int : x.type = .int)
      (valued : x.isValueless = false)
      (chained : Chained AddOp.item (Term.Compiles nested) t₁ x.negated rest items₂ y t') :
      CompilesIn nested t (.mk true first rest) (items₁ ++ x.negateItems ++ items₂) y t'

/-- What an expression with a number of levels compiles to. -/
def Expr.Compiles : (levels : Nat) → Translation Expr
  | 0 => fun _ _ _ _ _ => False
  | levels + 1 => Expr.CompilesIn (Expr.Compiles levels)

end Syntax

end MicroJava

import MicroJava.Proofs.Translation.Expression

/-! # What conditions and statements compile to

A condition compiles to comparisons with jumps between them. Jumps out of it wait for the labels
`holds` and `fails` until the statement knows the addresses; a `break` waits for the label `exit` of
its loop. Items name absolute addresses, so the relations take the address at which the items begin.
-/

namespace MicroJava.Syntax

open Items

/-! ## Conditions -/

/-- What a comparison compiles to: the items that push the two values. -/
inductive Compare.Compiles (nested : Translation Expr) :
    SymbolTable → Compare → List Item → SymbolTable → Prop where
  | mk {t left relation right items₁ x t₁ items₂ y t'}
      (left_ : nested t left items₁ x t₁)
      (valued : x.isValueless = false)
      (right_ : nested t₁ right items₂ y t')
      (valued' : y.isValueless = false)
      (comparable : t'.types.comparable x.type y.type = true)
      (ordered : (t'.types.isReference x.type && relation.isOrder) = false) :
      Compiles nested t ⟨left, relation, right⟩
        (items₁ ++ x.loadItems ++ (items₂ ++ y.loadItems)) t'

/-- What a conjunction compiles to. Its last relation is still to be tested. -/
inductive Conjunction.Compiles (nested : Translation Expr) :
    SymbolTable → Conjunction → List Item → Comparison → SymbolTable → Prop where
  | single {t c items t'} (compare : Compare.Compiles nested t c items t') :
      Compiles nested t ⟨c, []⟩ items c.relation t'
  | and {t first rest items₁ op t₁ c items₂ t'}
      (front : Compiles nested t ⟨first, rest⟩ items₁ op t₁)
      (compare : Compare.Compiles nested t₁ c items₂ t') :
      Compiles nested t ⟨first, rest ++ [c]⟩
        (items₁ ++ [.jump (some op.negate) (.waiting .fails)] ++ items₂) c.relation t'

/-- What a condition compiles to. Its last relation is still to be tested. -/
inductive Disjunction.Compiles (nested : Translation Expr) :
    SymbolTable → Nat → Disjunction → List Item → Comparison → SymbolTable → Prop where
  | single {t base c items op t'} (conjunction : Conjunction.Compiles nested t c items op t') :
      Compiles nested t base ⟨c, []⟩ items op t'
  | or {t base first rest items₁ op₁ t₁ c items₂ op₂ t'}
      (front : Compiles nested t base ⟨first, rest⟩ items₁ op₁ t₁)
      (conjunction : Conjunction.Compiles nested t₁ c items₂ op₂ t') :
      Compiles nested t base ⟨first, rest ++ [c]⟩
        (resolve .fails (base + size items₁ + 3)
          (items₁ ++ [.jump (some op₁) (.waiting .holds)]) ++ items₂) op₂ t'

/-- The items of a condition with the jump on its last relation. Control goes on behind them if the
condition holds, and otherwise where `fails` leads. -/
def guardItems (base : Nat) (items : List Item) (op : Comparison) : List Item :=
  resolve .holds (base + size items + 3)
    (items ++ [.jump (some op.negate) (.waiting .fails)])

@[simp] theorem size_guardItems (base : Nat) (items : List Item) (op : Comparison) :
    size (guardItems base items op) = size items + 3 := by
  simp [guardItems]

/-! ## Statements -/

/-- Where a statement stands. -/
structure Place where
  /-- What the method around it returns. -/
  returns : TypeId
  /-- Whether there is a loop around it. -/
  inLoop : Bool

/-- The labels that the items of a statement may wait for. -/
def Place.exits (place : Place) : List OpenLabel := if place.inLoop then [.exit] else []

@[simp] theorem Place.mem_exits {place : Place} {label : OpenLabel} :
    label ∈ place.exits ↔ label = .exit ∧ place.inLoop = true := by
  unfold exits
  split <;> simp_all

/-- What it means that a statement compiles at an address to items. -/
abbrev StmtTranslation := Place → SymbolTable → Nat → Stmt → List Item → SymbolTable → Prop

def UpdateOp.item : UpdateOp → Item
  | add op => op.item
  | mul op => op.item

/-- The items of a return. -/
def returnItems : List Item := CodeBuffer.finishItems .none

/-- What statements one after the other compile to. -/
inductive Stmt.Sequence (nested : StmtTranslation) (place : Place) :
    SymbolTable → Nat → List Stmt → List Item → SymbolTable → Prop where
  | nil {t base} : Sequence nested place t base [] [] t
  | cons {t base s items₁ t₁ rest items₂ t'}
      (first : nested place t base s items₁ t₁)
      (more : Sequence nested place t₁ (base + size items₁) rest items₂ t') :
      Sequence nested place t base (s :: rest) (items₁ ++ items₂) t'

/-- What a statement compiles to, given the relations for what is nested in it. -/
inductive Stmt.CompilesIn (nested : StmtTranslation) (expr : Translation Expr) (place : Place) :
    SymbolTable → Nat → Stmt → List Item → SymbolTable → Prop where
  | assign {t base d e items₁ x t₁ items₂ y t'}
      (designator : d.Compiles expr t items₁ x t₁)
      (value : expr t₁ e items₂ y t')
      (storable : x.isVariable = true)
      (valued : y.isValueless = false)
      (assignable : t'.types.assignable y.type x.type = true) :
      CompilesIn nested expr place t base (.assign d e)
        (items₁ ++ items₂ ++ (y.loadItems ++ x.storeItems)) t'
  | update {t base d op e items₁ x t₁ items₂ y t'}
      (designator : d.Compiles expr t items₁ x t₁)
      (value : expr t₁ e items₂ y t')
      (storable : x.isVariable = true)
      (valued : y.isValueless = false)
      (ints : x.type = .int ∧ y.type = .int) :
      CompilesIn nested expr place t base (.update d op e)
        (items₁ ++ x.keepItems ++ x.loadItems ++ items₂ ++ y.loadItems ++ [op.item] ++
          x.storeItems) t'
  | step {t base d up items x t'}
      (designator : d.Compiles expr t items x t')
      (storable : x.isVariable = true)
      (int : x.type = .int) :
      CompilesIn nested expr place t base (.step d up) (items ++ x.stepItems up) t'
  | call {t base d args items₁ x t₁ id items₂ t'}
      (designator : d.Compiles expr t items₁ x t₁)
      (isMethod : x.kind = .method)
      (method : x.method = some id)
      (arguments : args.Pass expr t₁ id items₂ t') :
      CompilesIn nested expr place t base (.call d args)
        (items₁ ++ items₂ ++ x.callItems id ++
          if x.type = .none then [] else [.plain .pop [] ⟨rfl, rfl⟩]) t'
  | ifThen {t base c body items₁ op t₁ items₂ t'}
      (condition : c.Compiles expr t base items₁ op t₁)
      (then_ : nested place t₁ (base + size items₁ + 3) body items₂ t') :
      CompilesIn nested expr place t base (.ifThen c body)
        (resolve .fails (base + size items₁ + 3 + size items₂)
          (guardItems base items₁ op ++ items₂)) t'
  | ifElse {t base c body other items₁ op t₁ items₂ t₂ items₃ t'}
      (condition : c.Compiles expr t base items₁ op t₁)
      (then_ : nested place t₁ (base + size items₁ + 3) body items₂ t₂)
      (else_ : nested place t₂ (base + size items₁ + 3 + size items₂ + 3) other
        items₃ t') :
      CompilesIn nested expr place t base (.ifElse c body other)
        (resolve .finish
          (base + size items₁ + 3 + size items₂ + 3 + size items₃)
          (resolve .fails (base + size items₁ + 3 + size items₂ + 3)
            (guardItems base items₁ op ++ items₂ ++ [.jump none (.waiting .finish)]) ++ items₃)) t'
  | loop {t base c body items₁ op t₁ items₂ t'}
      (condition : c.Compiles expr t base items₁ op t₁)
      (body_ : nested { place with inLoop := true } t₁ (base + size items₁ + 3) body
        items₂ t') :
      CompilesIn nested expr place t base (.loop c body)
        (resolve .fails (base + size items₁ + 3 + size items₂ + 3)
          (resolve .exit (base + size items₁ + 3 + size items₂ + 3)
            (guardItems base items₁ op ++ items₂ ++ [.jump none (.address base)]))) t'
  | leave {t base} (inLoop : place.inLoop = true) :
      CompilesIn nested expr place t base .leave [.jump none (.waiting .exit)] t
  | yieldNothing {t base} (void : place.returns = .none) :
      CompilesIn nested expr place t base (.yield none) returnItems t
  | yieldValue {t base e items x t'}
      (value : expr t e items x t')
      (valued : x.isValueless = false)
      (result : place.returns ≠ .none)
      (assignable : t'.types.assignable x.type place.returns = true) :
      CompilesIn nested expr place t base (.yield (some e)) (items ++ x.loadItems ++ returnItems) t'
  | read {t base d items x t'}
      (designator : d.Compiles expr t items x t')
      (storable : x.isVariable = true)
      (readable : x.type = .int ∨ x.type = .char) :
      CompilesIn nested expr place t base (.read d)
        (items ++ (if x.type = .char then .plain .bread [] ⟨rfl, rfl⟩
          else .plain .read [] ⟨rfl, rfl⟩) :: x.storeItems) t'
  | print {t base e width items x t'}
      (value : expr t e items x t')
      (valued : x.isValueless = false)
      (printable : x.type = .int ∨ x.type = .char) :
      CompilesIn nested expr place t base (.print e width)
        (items ++ x.loadItems ++ [.const (width.getD (Compile.defaultWidth x)).toInt,
          if x.type = .int then .plain .print [] ⟨rfl, rfl⟩ else .plain .bprint [] ⟨rfl, rfl⟩]) t'
  | block {t base body items t'} (sequence : Sequence nested place t base body items t') :
      CompilesIn nested expr place t base (.block body) items t'
  | empty {t base} : CompilesIn nested expr place t base .empty [] t

/-- What a statement with a number of levels compiles to. -/
def Stmt.Compiles : (levels : Nat) → StmtTranslation
  | 0 => fun _ _ _ _ _ _ => False
  | levels + 1 => Stmt.CompilesIn (Stmt.Compiles levels) (Expr.Compiles levels)

end MicroJava.Syntax

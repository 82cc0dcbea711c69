import MicroJava.Proofs.Simulation.Value

/-! # Compiled expressions read what they mean

Where a machine holds the variables and objects of a memory, the items of an expression that only
reads, followed by those that load its operand, push the value that the expression has in this
memory and change nothing else, or meet the same fault.
-/

namespace MicroJava

open Items Operand Machine

variable {name : String} {id : EntityId}

/-! ## Machines that hold a memory -/

namespace SymbolTable

/-- Whether instructions can name the variables in scope and the fields of all classes. -/
structure Addressable (t : SymbolTable) : Prop where
  localVar : ∀ name id, t.lookup? name = some id → (t.entity id).kind = .var →
    (t.entity id).level ≠ 0 → 0 ≤ (t.entity id).adr ∧ (t.entity id).adr ≤ 0x7f
  globalVar : ∀ name id, t.lookup? name = some id → (t.entity id).kind = .var →
    (t.entity id).level = 0 → 0 ≤ (t.entity id).adr ∧ (t.entity id).adr ≤ 0x7fff
  field : ∀ a (i : Nat) id, (t.types.fields a)[i]? = some id →
    (t.entity id).adr = i ∧ i ≤ 0x7fff

/-- A field is addressed by its number in the class. -/
theorem Addressable.field_adr {t : SymbolTable} (addressable : t.Addressable) {type : TypeId}
    (found : t.field? type name = some id) :
    (t.entity id).adr = (t.types.fields type).idxOf id ∧ (t.types.fields type).idxOf id ≤ 0x7fff := by
  have member : id ∈ t.types.fields type := List.mem_reverse.mp (List.mem_of_find?_eq_some found)
  apply addressable.field type
  exact List.getElem?_eq_some_iff.mpr ⟨List.idxOf_lt_length_of_mem member, List.getElem_idxOf _⟩

end SymbolTable

namespace Machine

variable {t : SymbolTable} {μ : Memory} {m : Machine}

/-- What the machine holds in the place of a variable. -/
def held? (m : Machine) (e : Entity) : Option Int32 :=
  cell? (if e.level = 0 then m.globals else m.visible) e.adr

/-- Whether a machine has the variables in scope and the objects of a memory. -/
structure Holds (m : Machine) (t : SymbolTable) (μ : Memory) : Prop where
  values : ∀ name id, t.lookup? name = some id → (t.entity id).kind = .var →
    m.held? (t.entity id) = some (μ.values id)
  objects : m.object? = μ.object?

theorem Holds.push (holds : m.Holds t μ) (value : Int32) : (m.push value).Holds t μ :=
  ⟨holds.values, holds.objects⟩

theorem Holds.loadCell (holds : m.Holds t μ) (reference : Int32) (index : Int) :
    Machine.loadCell reference index m = (μ.cell reference index).map m.push := by
  rw [Machine.loadCell, Memory.cell, holds.objects]
  cases μ.object? reference with
  | none => rfl
  | some cells =>
    cases found : cell? cells index with
    | none => simp [require, found, Except.map]
    | some value => simp [require, found, Except.map]

end Machine

namespace Syntax

variable {t t' : SymbolTable} {μ : Memory} {items front : List Item} {x y : Operand}
  {value : Except MachineFault Int32} {nested : Translation Expr}

/-- The situation of machines that hold a memory. -/
def inMemory (t : SymbolTable) (μ : Memory) : Situation where
  holds m := m.Holds t μ
  push := Holds.push

/-! ## Operands -/

private theorem regular_cell (μ : Memory) (reference : Int32) (index : Int) :
    Regular (μ.cell reference index) := by
  intro fault failed
  unfold Memory.cell at failed
  split at failed
  · split at failed <;> cases failed
    decide
  · cases failed
    decide

namespace Evaluated

/-- A name that means a constant or a variable. -/
theorem ofName (addressable : t.Addressable) (found : t.lookup? name = some id)
    (named : t.namesValue name = true) :
    Evaluated (inMemory t μ) [] (ofEntity id (t.entity id)).result (.ok (t.valueIn μ id)) := by
  have kinds : (t.entity id).kind = .con ∨ (t.entity id).kind = .var := by
    simpa [SymbolTable.namesValue, found] using named
  rcases kinds with isConstant | isVar
  · have value : t.valueIn μ id = (ofEntity id (t.entity id)).result.value := by
      simp [SymbolTable.valueIn, isConstant, ofEntity]
    rw [value]
    apply ofConstant
    simp [ofEntity, kindOf, isConstant]
  · have value : t.valueIn μ id = μ.values id := by simp [SymbolTable.valueIn, isVar]
    rw [value]
    by_cases global : (t.entity id).level = 0
    · obtain ⟨low, high⟩ := addressable.globalVar name id found isVar global
      have kind : (ofEntity id (t.entity id)).result.kind = .staticVar := by
        simp [ofEntity, kindOf, isVar, global]
      refine ⟨?_, regular_ok _, by simp [kind], by simp [kind]⟩
      rw [loadItems, kind]
      refine .single rfl fun m holds => ?_
      have cell := holds.values name id found isVar
      rw [held?, if_pos global] at cell
      simp [ofEntity, Item.execute_getStatic low high, loadGlobal, cell, require]
    · obtain ⟨low, high⟩ := addressable.localVar name id found isVar global
      have kind : (ofEntity id (t.entity id)).result.kind = .localVar := by
        simp [ofEntity, kindOf, isVar, global]
      refine ⟨?_, regular_ok _, by simp [kind], by simp [kind]⟩
      rw [loadItems, kind]
      refine .single (by simp) fun m holds => ?_
      have cell := holds.values name id found isVar
      rw [held?, if_neg global] at cell
      simp [ofEntity, Item.execute_load low high, loadLocal, cell, require]

/-- A field of the object that an operand refers to. -/
theorem field (addressable : t.Addressable) (found : t.field? x.type name = some id)
    (evaluated : Evaluated (inMemory t μ) items x value) :
    Evaluated (inMemory t μ) (items ++ x.loadItems)
      { x with kind := .field, type := (t.entity id).type, adr := (t.entity id).adr }
      (value >>= fun v => μ.cell v ((t.types.fields x.type).idxOf id)) where
  reads := by
    obtain ⟨adr, high⟩ := addressable.field_adr found
    rw [adr]
    refine evaluated.reads.unary rfl fun m holds a => ?_
    have fits : (0 : Int) ≤ (t.types.fields x.type).idxOf id ∧
        ((t.types.fields x.type).idxOf id : Int) ≤ 0x7fff := by omega
    rw [Item.execute_getField fits.1 fits.2]
    exact holds.loadCell a _
  regular := evaluated.regular.bind fun _ => regular_cell μ _ _
  noMethod := by simp
  constant := by simp

/-- An element of the array that an operand refers to. -/
theorem element {index : Operand} {back : List Item} {number : Except MachineFault Int32}
    (evaluated : Evaluated (inMemory t μ) items x value) (inner : Evaluated (inMemory t μ) back index number)
    (elem : TypeId) :
    Evaluated (inMemory t μ) (items ++ (x.loadItems ++ back ++ index.loadItems))
      { x with kind := .element, type := elem }
      (value >>= fun v => number >>= fun i => μ.cell v i.toInt) where
  reads := by
    have both := evaluated.reads.binary (f := fun v i => μ.cell v i.toInt) inner.reads
      (Item.isSequential_loadElement elem) fun m holds a b => by
        rw [Item.execute_loadElement]
        exact holds.loadCell a b.toInt
    simpa [loadItems] using both
  regular := evaluated.regular.bind fun _ => inner.regular.bind fun _ => regular_cell μ _ _
  noMethod := by simp
  constant := by simp

end Evaluated

/-! ## Expressions -/

/-- Whether a relation for expressions gives items that read the value of those that only read, and
leaves the symbol table as it is. -/
def Reading (μ : Memory) (rule : Translation Expr) : Prop :=
  ∀ ⦃t e items x t'⦄, rule t e items x t' → t.Addressable → e.isReading t = true →
    t' = t ∧ Evaluated (inMemory t μ) items x (e.evaluate t μ)

theorem Selector.Apply.evaluated (inner : Reading μ nested) {selectors : List Selector}
    (applied : Selector.Apply nested t x selectors items y t') (addressable : t.Addressable)
    (isReading : Selector.listIsReading t selectors = true) (first : Evaluated (inMemory t μ) front x value) :
    t' = t ∧ Evaluated (inMemory t μ) (front ++ items) y
      (value >>= fun v => Selector.select t μ x.type v selectors) := by
  induction applied generalizing front value with
  | nil =>
    have whole : (value >>= fun v => Except.ok v) = value := bind_pure value
    simpa [Selector.select, whole] using first
  | @field t x name id rest items y t' _ _ found _ ih =>
    obtain ⟨rfl, last⟩ := ih addressable (by simpa [Selector.listIsReading] using isReading)
      (first.field addressable found)
    refine ⟨rfl, ?_⟩
    have step (v : Int32) : Selector.select t' μ x.type v (.field name :: rest) =
        μ.cell v ((t'.types.fields x.type).idxOf id) >>= fun w =>
          Selector.select t' μ (t'.entity id).type w rest := by
      simp only [Selector.select, SymbolTable.field?, found]
    simpa [step] using last
  | @index t x e items1 index t1 rest items2 y t' _ compiled _ _ _ _ ih =>
    simp only [Selector.listIsReading, Bool.and_eq_true] at isReading
    obtain ⟨rfl, number⟩ := inner compiled addressable isReading.1
    obtain ⟨rfl, last⟩ := ih addressable isReading.2 (first.element number _)
    refine ⟨rfl, ?_⟩
    simpa [Selector.select] using last

theorem Factor.Compiles.evaluated (inner : Reading μ nested) {f : Factor}
    (compiles : f.Compiles nested t items x t') (addressable : t.Addressable)
    (isReading : f.isReading t = true) : t' = t ∧ Evaluated (inMemory t μ) items x (f.evaluate t μ) := by
  cases compiles with
  | @value _ _ _ x _ designator =>
    obtain @⟨_, name, id, selectors, _, _, _, found, _, applied⟩ := designator
    simp only [Factor.isReading, Bool.and_eq_true] at isReading
    obtain ⟨rfl, selected⟩ := applied.evaluated inner addressable isReading.2
      (.ofName addressable found isReading.1)
    have valued : x.asValue = x := by simp [asValue, selected.noMethod]
    rw [valued, Factor.evaluate, found]
    exact ⟨rfl, selected⟩
  | @number _ v =>
    refine ⟨rfl, ?_⟩
    rw [Factor.evaluate]
    exact .ofConstant rfl
  | @paren _ e _ _ _ compiled =>
    rw [Factor.evaluate]
    exact inner compiled addressable (by simpa [Factor.isReading] using isReading)
  | call | character | object | array => simp [Factor.isReading] at isReading

theorem Factor.chainIsReading_iff {rest : List (MulOp × Factor)} :
    Factor.chainIsReading t rest = true ↔ ∀ entry ∈ rest, entry.2.isReading t = true := by
  induction rest with
  | nil => simp [Factor.chainIsReading]
  | cons entry rest ih => simp [Factor.chainIsReading, ih]

theorem Term.chainIsReading_iff {rest : List (AddOp × Term)} :
    Term.chainIsReading t rest = true ↔ ∀ entry ∈ rest, entry.2.isReading t = true := by
  induction rest with
  | nil => simp [Term.chainIsReading]
  | cons entry rest ih => simp [Term.chainIsReading, ih]

theorem Term.Compiles.evaluated (inner : Reading μ nested) {e : Term}
    (compiles : e.Compiles nested t items x t') (addressable : t.Addressable)
    (isReading : e.isReading t = true) : t' = t ∧ Evaluated (inMemory t μ) items x (e.evaluate t μ) := by
  obtain ⟨first_, chained⟩ := compiles
  simp only [Term.isReading, Bool.and_eq_true, Factor.chainIsReading_iff] at isReading
  obtain ⟨rfl, first⟩ := first_.evaluated inner addressable isReading.1
  have chain := chained.evaluated (Factor.evaluateChain _ μ) MulOp.execute_item
    (fun op => by cases op <;> rfl) (fun _ _ _ _ factor => factor.evaluated inner addressable)
    (fun _ => rfl) (fun _ _ _ _ => rfl) isReading.2 first
  simpa [Term.evaluate] using chain

theorem Expr.CompilesIn.evaluated (inner : Reading μ nested) :
    Reading μ (Expr.CompilesIn nested) := by
  intro t e items x t' compiles addressable isReading
  have chains {t x items y t'} {rest : List (AddOp × Term)} {front : List Item}
      {value : Except MachineFault Int32}
      (chained : Chained AddOp.item (Term.Compiles nested) t x rest items y t')
      (addressable : t.Addressable) (isReading : Term.chainIsReading t rest = true)
      (first : Evaluated (inMemory t μ) front x value) :=
    chained.evaluated (Term.evaluateChain t μ) AddOp.execute_item (fun op => by cases op <;> rfl)
      (fun _ _ _ _ term => term.evaluated inner addressable)
      (fun _ => rfl) (fun _ _ _ _ => rfl) (Term.chainIsReading_iff.mp isReading) first
  cases compiles with
  | positive first_ chained =>
    simp only [Expr.isReading, Bool.and_eq_true] at isReading
    obtain ⟨rfl, first⟩ := first_.evaluated inner addressable isReading.1
    simpa [Expr.evaluate] using chains chained addressable isReading.2 first
  | negative first_ int valued chained =>
    simp only [Expr.isReading, Bool.and_eq_true] at isReading
    obtain ⟨rfl, first⟩ := first_.evaluated inner addressable isReading.1
    simpa [Expr.evaluate] using chains chained addressable isReading.2 first.negate

theorem Expr.Compiles.evaluated (μ : Memory) (levels : Nat) : Reading μ (Expr.Compiles levels) := by
  induction levels with
  | zero => exact fun _ _ _ _ _ impossible => impossible.elim
  | succ levels ih => exact Expr.CompilesIn.evaluated ih

end Syntax

end MicroJava

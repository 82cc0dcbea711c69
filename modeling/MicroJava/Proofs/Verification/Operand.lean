import MicroJava.Proofs.Verification.Frames

/-! # Operands on stacks of types

While an expression is compiled, part of what its operand needs lies on the stack: nothing for a
constant or a variable, the object for a field, the array and the index for an element.
`Frame.Holds` tells the types of that part. The items that load an operand or store to it find it
on the stack and follow the rules of their instructions.
-/

namespace MicroJava

open Operand TypeTable List

variable {id : EntityId}

theorem Operand.valued_of_isVariable {x : Operand} (storable : x.isVariable = true) :
    x.isValueless = false := by
  unfold isVariable at storable
  unfold isValueless
  cases kind : x.kind <;> simp_all

/-! ## Types of values -/

namespace TypeTable

variable {types : TypeTable} {a b : TypeId}

/-- Whether values can have a type: that of `null`, or one that variables can be declared of. -/
def IsValue (types : TypeTable) (a : TypeId) : Prop := a = .null ∨ types.IsData a

private theorem isArray_of_isClass (isClass : types.isClass a = true) :
    types.isArray a = false := by
  have kind : types.kind a = .classType := by simpa [TypeTable.isClass] using isClass
  simp [isArray, kind]

theorem eq_of_equal (notArray : types.isArray a = false ∨ types.isArray b = false)
    (equal : types.equal a b = true) : a = b := by
  unfold TypeTable.equal at equal
  cases fuel : types.size with
  | zero => simpa [fuel, equalWithin] using equal
  | succ fuel =>
    have notBoth : (types.isArray a && types.isArray b) = false := by
      rcases notArray with none | none <;> simp [none]
    simpa [*, equalWithin] using equal

end TypeTable

namespace SymbolTable

variable {t : SymbolTable} {a b : TypeId}

section

variable (based : t.Based)

include based

theorem Based.kind (inside : initial.types.contains a = true) :
    t.types.kind a = initial.types.kind a := congrArg TypeInfo.kind (based.info a inside)

/-- Numbers are no references. -/
theorem Based.isReference_scalar (scalar : a = .int ∨ a = .char) :
    t.types.isReference a = false := by
  have kind : t.types.kind a = .int ∨ t.types.kind a = .char := by
    rcases scalar with rfl | rfl
    · exact .inl (based.kind (by decide))
    · exact .inr (based.kind (by decide))
  rcases kind with kind | kind <;>
    simp [isReference, isArray, isClass, kind]

theorem Based.isClass_null : t.types.isClass .null = true := by
  have kind : t.types.kind .null = .classType := based.kind (by decide)
  simp [isClass, kind]

theorem Based.notNull_of_isArray (isArray : t.types.isArray a = true) : a ≠ .null := by
  rintro rfl
  rw [isArray_of_isClass based.isClass_null] at isArray
  cases isArray

/-- The elements of arrays that variables can be declared of. -/
theorem Based.isData_elem (isData : t.types.IsData a) (isArray : t.types.isArray a = true) :
    t.types.IsData (t.types.elemType a) := by
  cases isData with
  | int =>
    have none := based.isReference_scalar (.inl rfl)
    simp [isReference, isArray] at none
  | char =>
    have none := based.isReference_scalar (.inr rfl)
    simp [isReference, isArray] at none
  | object isClass _ =>
    rw [isArray_of_isClass isClass] at isArray
    cases isArray
  | array _ elem => exact elem

/-- Nothing is declared of no type. -/
theorem Based.ne_none (isData : t.types.IsData a) : a ≠ .none := by
  rintro rfl
  have kind : t.types.kind .none = .none := based.kind (by decide)
  generalize same : TypeId.none = a at isData
  cases isData with
  | int => cases same
  | char => cases same
  | object isClass _ => simp [← same, TypeTable.isClass, kind] at isClass
  | array isArray _ => simp [← same, TypeTable.isArray, kind] at isArray

theorem Based.ne_null (isData : t.types.IsData a) : a ≠ .null := by
  cases isData with
  | int => decide
  | char => decide
  | object _ notNull => exact notNull
  | array isArray _ => exact based.notNull_of_isArray isArray

end

/-- What a method that returns something returns. -/
theorem WellTyped.isData_result {limit : Nat} (wellTyped : t.WellTyped limit)
    (isMethod : (t.entity id).kind = .method) (result : (t.entity id).type ≠ .none) :
    t.types.IsData (t.entity id).type := by
  rcases Nat.lt_or_ge id.index initial.entities.size with early | late
  · exact wellTyped.isData_early early (.inr isMethod)
  · have sound := wellTyped.sound id late (contains_of_method isMethod)
    rw [Entity.Sound, isMethod] at sound
    exact sound.resolve_left result

/-- Types that a table declares are types of variables in a later one. -/
theorem Agrees.isData_type {u : SymbolTable} {limit : Nat} (agrees : t.Agrees u)
    (wellTyped : u.WellTyped limit) (isType : (t.entity id).kind = .type) :
    u.types.IsData (t.entity id).type := by
  have same := agrees.entity id (contains_of_kind (by simp [isType]))
  have isData := wellTyped.isData_type (same.kind.trans isType)
  rwa [same.type] at isData

/-- Values are numbers or references. -/
theorem Based.isValue_cases (based : t.Based) (isValue : t.types.IsValue a) :
    (a = .int ∨ a = .char) ∨ t.types.isReference a = true := by
  rcases isValue with rfl | isData
  · exact .inr (by simp [isReference, based.isClass_null])
  · cases isData with
    | int => exact .inl (.inl rfl)
    | char => exact .inl (.inr rfl)
    | object isClass _ => exact .inr (by simp [isReference, isClass])
    | array isArray _ => exact .inr (by simp [isReference, isArray])

theorem Based.eq_of_equal (based : t.Based) (scalar : a = .int ∨ a = .char)
    (equal : t.types.equal a b = true ∨ t.types.equal b a = true) : b = a := by
  have notArray : t.types.isArray a = false := by
    have none := based.isReference_scalar scalar
    simp only [isReference, Bool.or_eq_false_iff] at none
    exact none.1
  rcases equal with equal | equal
  · exact (TypeTable.eq_of_equal (.inl notArray) equal).symm
  · exact TypeTable.eq_of_equal (.inr notArray) equal

end SymbolTable

namespace Frame

variable {v : Frame} {a b : TypeId}

theorem stackType_scalar (sound : v.Sound) (scalar : a = .int ∨ a = .char) :
    v.stackType a = .scalar := by
  have none := sound.wellTyped.based.isReference_scalar scalar
  simp only [TypeTable.isReference, Bool.or_eq_false_iff] at none
  have notNull : a ≠ .null := by rcases scalar with rfl | rfl <;> decide
  simp [stackType, TypeTable.stackType, notNull, none]

theorem stackType_array (sound : v.Sound) (isArray : v.table.types.isArray a = true) :
    v.stackType a = .array a := by
  have notNull := sound.wellTyped.based.notNull_of_isArray isArray
  simp [stackType, TypeTable.stackType, notNull, isArray]

theorem stackType_object (isClass : v.table.types.isClass a = true) (notNull : a ≠ .null) :
    v.stackType a = .object a := by
  simp [stackType, TypeTable.stackType, notNull, isClass, TypeTable.isArray_of_isClass isClass]

/-- What is on the stack of a reference tells its type. -/
theorem reference?_stackType (isReference : v.table.types.isReference a = true) :
    (v.stackType a).reference? = some a := by
  unfold stackType TypeTable.stackType
  split
  · next isNull => simp [StackType.reference?, isNull]
  · split
    · rfl
    · next notArray =>
      have isClass : v.table.types.isClass a = true := by
        simpa [TypeTable.isReference, notArray] using isReference
      simp [isClass, StackType.reference?]

/-- A value fits where its type can be stored. -/
theorem Sound.fits (sound : v.Sound) (isValue : v.table.types.IsValue a)
    (assignable : v.table.types.assignable a b = true) :
    (v.stackType a).fits v.table.types b = true := by
  rcases sound.wellTyped.based.isValue_cases isValue with scalar | isReference
  · have same : b = a := by
      have notNull : a ≠ .null := by rcases scalar with rfl | rfl <;> decide
      have notReference := sound.wellTyped.based.isReference_scalar scalar
      simp only [isReference, Bool.or_eq_false_iff] at notReference
      refine sound.wellTyped.based.eq_of_equal scalar (.inl ?_)
      simpa [TypeTable.assignable, notNull, notReference] using assignable
    subst same
    rw [stackType_scalar sound scalar]
    rcases scalar with rfl | rfl <;> rfl
  · simp [StackType.fits, reference?_stackType isReference, assignable]

/-- What fits a number is a number. -/
theorem Sound.scalar_of_assignable (sound : v.Sound) (scalar : b = .int ∨ b = .char)
    (assignable : v.table.types.assignable a b = true) : v.stackType a = .scalar := by
  have notReference := sound.wellTyped.based.isReference_scalar scalar
  have both := notReference
  simp only [isReference, Bool.or_eq_false_iff] at both
  have same : a = b := by
    refine sound.wellTyped.based.eq_of_equal scalar (.inr ?_)
    simpa [TypeTable.assignable, notReference, both] using assignable
  rw [same]
  exact stackType_scalar sound scalar

/-- Values can be compared if their types can. -/
theorem Sound.comparable (sound : v.Sound) (isValue : v.table.types.IsValue a)
    (isValue' : v.table.types.IsValue b) (comparable : v.table.types.comparable a b = true) :
    (v.stackType a).comparable v.table.types (v.stackType b) = true := by
  have based := sound.wellTyped.based
  have scalars {a b : TypeId} (scalar : a = .int ∨ a = .char)
      (comparable : v.table.types.equal a b = true ∨ v.table.types.equal b a = true) :
      (v.stackType a).comparable v.table.types (v.stackType b) = true := by
    rw [based.eq_of_equal scalar comparable, stackType_scalar sound scalar]
    rfl
  have notNull {a : TypeId} (scalar : a = .int ∨ a = .char) : a ≠ .null := by
    rcases scalar with rfl | rfl <;> decide
  rcases based.isValue_cases isValue with scalar | isReference
  · refine scalars scalar (.inl ?_)
    simpa [TypeTable.comparable, notNull scalar, based.isReference_scalar scalar] using comparable
  · rcases based.isValue_cases isValue' with scalar | isReference'
    · have equal : v.table.types.equal a b = true := by
        simpa [TypeTable.comparable, notNull scalar, based.isReference_scalar scalar] using comparable
      rw [based.eq_of_equal scalar (.inr equal)] at isReference
      rw [based.isReference_scalar scalar] at isReference
      cases isReference
    · simp [StackType.comparable, reference?_stackType, isReference, isReference', comparable]

/-! ## Items with operands -/

variable {σ τ : List StackType} {op : Opcode}

/-- An instruction without operands. -/
theorem takes_bare (step : v.Step op [] none σ τ)
    (proper : ([] : List Int).length = op.widths.length ∧ op.isTransfer = false) :
    v.Takes σ (.plain op [] proper) τ := ⟨step, by simp⟩

theorem fits_byte {n : Nat} (bound : n ≤ 127) : Width.byte.Fits n := by
  simp only [Width.Fits, Width.bytes, Nat.pow_eq]
  omega

theorem fits_short {n : Nat} (bound : n ≤ 32767) : Width.short.Fits n := by
  simp only [Width.Fits, Width.bytes, Nat.pow_eq]
  omega

theorem takes_const (v : Frame) (value : Int32) (σ : List StackType) :
    v.Takes σ (.const value.toInt) (.scalar :: σ) := by
  have isConst (n : Int) (fits : Width.word.Fits n) : v.Takes σ (.const n) (.scalar :: σ) := by
    fun_cases Item.const n with
    | case8 =>
      refine ⟨.const rfl, fun pair member => ?_⟩
      simp only [Opcode.widths, zip_cons_cons, zip_nil_right, mem_singleton] at member
      subst member
      exact fits
    | _ => exact takes_bare (.const rfl) _
  have low := value.le_toInt
  have high := value.toInt_lt
  refine isConst value.toInt ?_
  simp only [Width.Fits, Width.bytes, Nat.pow_eq]
  omega

private theorem index_le {α : Type} {l : List α} {i bound : Nat} {x : α} (known : l[i]? = some x)
    (length : l.length ≤ bound) : i ≤ bound :=
  Nat.le_of_lt (Nat.lt_of_lt_of_le (List.getElem?_eq_some_iff.mp known).1 length)

theorem Sound.takes_load (sound : v.Sound) {slot : Nat} (known : v.slots[slot]? = some a) :
    v.Takes σ (.load slot) (v.stackType a :: σ) := by
  have isLoad (n : Int) (same : (slot : Int) = n) : v.Takes σ (.load n) (v.stackType a :: σ) := by
    fun_cases Item.load n with
    | case5 =>
      refine ⟨.load (by rw [Opcode.loadSlot?, ← same]) known, fun pair member => ?_⟩
      simp only [Opcode.widths, zip_cons_cons, zip_nil_right, mem_singleton] at member
      rw [member, ← same]
      exact fits_byte (index_le known sound.slots)
    | _ => exact takes_bare (.load (by rw [same]; rfl) known) _
  exact isLoad slot rfl

theorem Sound.takes_store (sound : v.Sound) {slot : Nat} {value : StackType}
    (known : v.slots[slot]? = some a) (fits : value.fits v.table.types a = true) :
    v.Takes (value :: σ) (.store slot) σ := by
  have isStore (n : Int) (same : (slot : Int) = n) : v.Takes (value :: σ) (.store n) σ := by
    fun_cases Item.store n with
    | case5 =>
      refine ⟨.store (by rw [Opcode.storeSlot?, ← same]) known fits, fun pair member => ?_⟩
      simp only [Opcode.widths, zip_cons_cons, zip_nil_right, mem_singleton] at member
      rw [member, ← same]
      exact fits_byte (index_le known sound.slots)
    | _ => exact takes_bare (.store (by rw [same]; rfl) known fits) _
  exact isStore slot rfl

/-! ## What operands need -/

/-- The types of what an operand needs on the stack. -/
inductive Holds (v : Frame) (x : Operand) : List StackType → Prop where
  | con (kind : x.kind = .con)
      (type : (x.type = .int ∨ x.type = .char) ∨ x.type = .null ∧ x.value = 0) : Holds v x []
  | localVar {slot : Nat} (kind : x.kind = .localVar) (adr : x.adr = slot)
      (known : v.slots[slot]? = some x.type) : Holds v x []
  | staticVar {slot : Nat} (kind : x.kind = .staticVar) (adr : x.adr = slot)
      (known : v.globals[slot]? = some x.type) : Holds v x []
  | stack (kind : x.kind = .stack) : Holds v x [v.stackType x.type]
  | field {a : TypeId} {id : EntityId} {index : Nat} (kind : x.kind = .field)
      (isClass : v.table.types.isClass a = true) (adr : x.adr = index)
      (known : (v.table.types.fields a)[index]? = some id) (type : x.type = (v.table.entity id).type) :
      Holds v x [.object a]
  | element {a : TypeId} (kind : x.kind = .element) (isArray : v.table.types.isArray a = true)
      (type : x.type = v.table.types.elemType a) : Holds v x [.scalar, .array a]
  | method (kind : x.kind = .method) : Holds v x []
  | nothing (kind : x.kind = .nothing) : Holds v x []

variable {x : Operand} {held : List StackType}

section

variable (holds : v.Holds x held)

include holds

/-- Loading an operand replaces what it needs by its value. -/
theorem Holds.load (sound : v.Sound) (valued : x.isValueless = false) (notMethod : x.kind ≠ .method)
    (σ : List StackType) : v.Typed (held ++ σ) x.loadItems (v.stackType x.type :: σ) := by
  cases holds with
  | con kind type =>
    simp only [loadItems, kind]
    refine Takes.typed ?_
    rcases type with scalar | ⟨null, zero⟩
    · rw [stackType_scalar sound scalar]
      exact takes_const v x.value σ
    · have isNull : v.stackType x.type = .null := by
        simp [stackType, TypeTable.stackType, null]
      rw [isNull, zero]
      exact takes_bare .null _
  | localVar kind adr known =>
    simp only [loadItems, kind, adr]
    exact (sound.takes_load known).typed
  | staticVar kind adr known =>
    simp only [loadItems, kind, adr]
    exact Takes.typed ⟨.getStatic known, by
      simpa [Opcode.widths] using fits_short (index_le known sound.globals)⟩
  | stack kind =>
    simp only [loadItems, kind]
    exact .nil
  | field kind isClass adr known type =>
    simp only [loadItems, kind, adr, type]
    exact Takes.typed ⟨.getField isClass known, by
      simpa [Opcode.widths] using fits_short (index_le known (sound.wellTyped.fieldCount _))⟩
  | element kind isArray type =>
    simp only [loadItems, kind, Item.loadElement]
    refine Takes.typed ?_
    split
    · next isChar =>
      rw [isChar, stackType_scalar sound (.inr rfl)]
      exact takes_bare (.baload isArray (type.symm.trans isChar)) _
    · next notChar =>
      rw [type] at notChar ⊢
      exact takes_bare (.aload isArray notChar) _
  | method kind => exact absurd kind notMethod
  | nothing kind => simp [isValueless, kind] at valued

/-- Storing to an operand takes the value and what the operand needs off the stack. -/
theorem Holds.store (sound : v.Sound) (storable : x.isVariable = true)
    (isValue : v.table.types.IsValue a) (assignable : v.table.types.assignable a x.type = true)
    (σ : List StackType) : v.Typed (v.stackType a :: (held ++ σ)) x.storeItems σ := by
  have fits := sound.fits isValue assignable
  cases holds with
  | localVar kind adr known =>
    simp only [storeItems, kind, adr]
    exact (sound.takes_store known fits).typed
  | staticVar kind adr known =>
    simp only [storeItems, kind, adr]
    exact Takes.typed ⟨.putStatic known fits, by
      simpa [Opcode.widths] using fits_short (index_le known sound.globals)⟩
  | field kind isClass adr known type =>
    simp only [storeItems, kind, adr]
    exact Takes.typed ⟨.putField isClass known (type ▸ fits), by
      simpa [Opcode.widths] using fits_short (index_le known (sound.wellTyped.fieldCount _))⟩
  | element kind isArray type =>
    simp only [storeItems, kind, Item.storeElement]
    refine Takes.typed ?_
    split
    · next isChar =>
      rw [sound.scalar_of_assignable (.inr isChar) assignable]
      exact takes_bare (.bastore isArray (type.symm.trans isChar)) _
    · next notChar => exact takes_bare (.astore isArray (type ▸ notChar) (type ▸ fits)) _
  | con kind | stack kind | method kind | nothing kind =>
    simp [isVariable, kind] at storable

/-- What an operand needs can be doubled. -/
theorem Holds.keep (storable : x.isVariable = true) (σ : List StackType) :
    v.Typed (held ++ σ) x.keepItems (held ++ (held ++ σ)) := by
  cases holds with
  | localVar kind | staticVar kind =>
    simp only [keepItems, kind]
    exact .nil
  | field kind =>
    simp only [keepItems, kind]
    exact (takes_bare .dup _).typed
  | element kind =>
    simp only [keepItems, kind]
    exact (takes_bare .dup2 _).typed
  | con kind | stack kind | method kind | nothing kind =>
    simp [isVariable, kind] at storable

/-- Stepping an operand takes what it needs off the stack. -/
theorem Holds.step (sound : v.Sound) (storable : x.isVariable = true) (int : x.type = .int)
    (up : Bool) (σ : List StackType) : v.Typed (held ++ σ) (x.stepItems up) σ := by
  -- All but local variables are loaded, changed and stored again.
  have inPlace : v.Typed (held ++ σ) (x.keepItems ++ x.loadItems ++
      [if up then .plain .const1 [] ⟨rfl, rfl⟩ else .plain .constM1 [] ⟨rfl, rfl⟩,
        .plain .add [] ⟨rfl, rfl⟩] ++ x.storeItems) σ := by
    have valued := valued_of_isVariable storable
    have scalar : v.stackType x.type = .scalar := stackType_scalar sound (.inl int)
    have load := holds.load sound valued (kind_of_isVariable storable) (held ++ σ)
    have store := holds.store sound storable (.inr .int) (int ▸ assignable_refl _) σ
    rw [stackType_scalar sound (.inl rfl)] at store
    rw [scalar] at load
    have push : v.Takes (.scalar :: (held ++ σ))
        (if up then .plain .const1 [] ⟨rfl, rfl⟩ else .plain .constM1 [] ⟨rfl, rfl⟩)
        (.scalar :: .scalar :: (held ++ σ)) := by
      cases up
      · exact takes_bare (.const rfl) _
      · exact takes_bare (.const rfl) _
    exact (((holds.keep storable σ).append load).append
      (.cons push (takes_bare (.arithmetic rfl) _).typed)).append store
  cases holds with
  | @localVar slot kind adr known =>
    simp only [stepItems, kind, adr]
    have inside := (List.getElem?_eq_some_iff.mp known).1
    have bound := sound.slots
    simp only [Limits.supported] at bound
    refine Takes.typed ⟨.inc (int ▸ known), ?_⟩
    have fits := fits_byte (show slot ≤ 127 by omega)
    have amount : Width.byte.Fits (if up then 1 else -1) := by
      unfold Width.Fits
      cases up <;> decide
    simpa [Opcode.widths] using ⟨fits, amount⟩
  | staticVar kind | field kind | element kind =>
    simp only [stepItems, kind]
    exact inPlace
  | con kind | stack kind | method kind | nothing kind =>
    simp [isVariable, kind] at storable

end

end Frame

end MicroJava

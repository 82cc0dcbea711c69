import MicroJava.Proofs.Types.Equality
import MicroJava.Proofs.Verification.Operand

/-! # Assignability and comparability of types

Up to equality, assignability orders the types of a table: `null` lies below all references, and an
array lies below an array of anything. Comparability is equality closed under comparing references
with `null`. Neither relation tells equal types apart.
-/

namespace MicroJava.TypeTable

open Relation.ReflTransGen

variable {types : TypeTable} {a a' b b' c : TypeId}

/-- What holds of the types of every program: they are layered, and neither `none` nor `null` is an
array. -/
structure Standard (types : TypeTable) : Prop where
  layered : types.Layered
  none : types.kind .none = .none
  null : types.kind .null = .classType

theorem Grows.standard (grown : initial.Grows types) : types.Standard where
  layered := grown.layered initial_layered
  none := grown.retains.kind (by decide)
  null := grown.retains.kind (by decide)

theorem assignable_iff : types.assignable a b = true ↔
    types.equal a b = true ∨ (a = .null ∧ types.isReference b = true) ∨
      (types.isArray a = true ∧ types.isArray b = true ∧ types.elemType b = .none) := by
  simp only [assignable, Bool.or_eq_true, Bool.and_eq_true, beq_iff_eq, or_assoc, and_assoc]

theorem comparable_iff : types.comparable a b = true ↔
    types.equal a b = true ∨ (a = .null ∧ types.isReference b = true) ∨
      (b = .null ∧ types.isReference a = true) := by
  simp only [comparable, Bool.or_eq_true, Bool.and_eq_true, beq_iff_eq, or_assoc]

theorem assignable_of_equal (equal : types.equal a b = true) : types.assignable a b = true :=
  assignable_iff.mpr (.inl equal)

namespace Standard

private theorem isArray_none (standard : types.Standard) : types.isArray .none = false := by
  simp [isArray, standard.none]

private theorem isArray_null (standard : types.Standard) : types.isArray .null = false := by
  simp [isArray, standard.null]

private theorem isReference_null (standard : types.Standard) : types.isReference .null = true := by
  simp [isReference, isClass, standard.null]

variable (standard : types.Standard)
include standard

theorem equal_symm (equal : types.equal a b = true) : types.equal b a = true :=
  standard.layered.equivalence.symm equal

theorem equal_trans (first : types.equal a b = true) (second : types.equal b c = true) :
    types.equal a c = true := standard.layered.equivalence.trans first second

private theorem kind_eq (equal : types.equal a b = true) : types.kind a = types.kind b := by
  cases arrays : types.isArray a && types.isArray b with
  | true =>
    simp only [isArray, Bool.and_eq_true, beq_iff_eq] at arrays
    rw [arrays.1, arrays.2]
  | false =>
    rw [standard.layered.equal_bare arrays, beq_iff_eq] at equal
    rw [equal]

private theorem isArray_eq (equal : types.equal a b = true) :
    types.isArray a = types.isArray b := by
  rw [isArray, isArray, standard.kind_eq equal]

private theorem isReference_eq (equal : types.equal a b = true) :
    types.isReference a = types.isReference b := by
  rw [isReference, isReference, isArray, isArray, isClass, isClass, standard.kind_eq equal]

private theorem elemType_eq_none (isArray : types.isArray a = true)
    (isArray' : types.isArray b = true)
    (equal : types.equal a b = true) (anything : types.elemType a = .none) :
    types.elemType b = .none := by
  rw [standard.layered.equal_arrays isArray isArray', anything] at equal
  exact eq_of_equal (.inr standard.isArray_none) (standard.equal_symm equal)

private theorem assignable_null_iff : types.assignable a .null = true ↔ a = .null := by
  rw [assignable_iff]
  constructor
  · rintro (equal | ⟨isNull, _⟩ | ⟨_, isArray, _⟩)
    · exact eq_of_equal (.inr standard.isArray_null) equal
    · exact isNull
    · simp [standard.isArray_null] at isArray
  · rintro rfl
    exact .inl (equalWithin_refl _ _)

private theorem null_assignable_iff :
    types.assignable .null b = true ↔ types.isReference b = true := by
  rw [assignable_iff]
  constructor
  · rintro (equal | ⟨_, isReference⟩ | ⟨isArray, _⟩)
    · rw [← standard.isReference_eq equal]
      exact standard.isReference_null
    · exact isReference
    · simp [standard.isArray_null] at isArray
  · intro isReference
    exact .inr (.inl ⟨rfl, isReference⟩)

private theorem assignable_arrays_iff (isArray : types.isArray a = true)
    (isArray' : types.isArray b = true) :
    types.assignable a b = true ↔ types.equal a b = true ∨ types.elemType b = .none := by
  rw [assignable_iff]
  constructor
  · rintro (equal | ⟨rfl, _⟩ | ⟨_, _, anything⟩)
    · exact .inl equal
    · simp [standard.isArray_null] at isArray
    · exact .inr anything
  · rintro (equal | anything)
    · exact .inl equal
    · exact .inr (.inr ⟨isArray, isArray', anything⟩)

/-- Whatever a type can be assigned to is a reference if the type is one. -/
theorem isReference_of_assignable (assignable : types.assignable a b = true)
    (isReference : types.isReference a = true) : types.isReference b = true := by
  rcases assignable_iff.mp assignable with equal | ⟨_, isReference'⟩ | ⟨_, isArray, _⟩
  · rwa [← standard.isReference_eq equal]
  · exact isReference'
  · simp [TypeTable.isReference, isArray]

theorem assignable_trans (first : types.assignable a b = true)
    (second : types.assignable b c = true) : types.assignable a c = true := by
  rcases assignable_iff.mp first with equal | ⟨rfl, isReference⟩ | ⟨isArray, isArray', anything⟩
  · -- What `b` is assigned to by any of the rules, the equal type `a` is by the same one.
    rcases assignable_iff.mp second with equal' | ⟨rfl, isReference⟩ | ⟨isArray, isArray', anything⟩
    · exact assignable_of_equal (standard.equal_trans equal equal')
    · obtain rfl := eq_of_equal (.inr standard.isArray_null) equal
      exact second
    · rw [← standard.isArray_eq equal] at isArray
      exact assignable_iff.mpr (.inr (.inr ⟨isArray, isArray', anything⟩))
  · exact standard.null_assignable_iff.mpr (standard.isReference_of_assignable second isReference)
  · rcases assignable_iff.mp second with equal | ⟨rfl, _⟩ | ⟨_, isArray'', anything'⟩
    · have isArray'' : types.isArray c = true := by rwa [← standard.isArray_eq equal]
      have anything' := standard.elemType_eq_none isArray' isArray'' equal anything
      exact assignable_iff.mpr (.inr (.inr ⟨isArray, isArray'', anything'⟩))
    · simp [standard.isArray_null] at isArray'
    · exact assignable_iff.mpr (.inr (.inr ⟨isArray, isArray'', anything'⟩))

theorem equal_of_assignable (first : types.assignable a b = true)
    (second : types.assignable b a = true) : types.equal a b = true := by
  rcases assignable_iff.mp first with equal | ⟨rfl, _⟩ | ⟨isArray, isArray', anything⟩
  · exact equal
  · rw [standard.assignable_null_iff.mp second]
    exact equalWithin_refl _ _
  · rcases (standard.assignable_arrays_iff isArray' isArray).mp second with equal | anything'
    · exact standard.equal_symm equal
    · -- Both are arrays of anything.
      rw [standard.layered.equal_arrays isArray isArray', anything, anything']
      exact equalWithin_refl _ _

theorem assignable_congr (left : types.equal a a' = true) (right : types.equal b b' = true) :
    types.assignable a b = types.assignable a' b' := by
  rw [Bool.eq_iff_iff]
  constructor
  · intro assignable
    have first := assignable_of_equal (standard.equal_symm left)
    exact standard.assignable_trans (standard.assignable_trans first assignable)
      (assignable_of_equal right)
  · intro assignable
    have last := assignable_of_equal (standard.equal_symm right)
    exact standard.assignable_trans (standard.assignable_trans (assignable_of_equal left) assignable)
      last

theorem comparable_symm (comparable : types.comparable a b = true) :
    types.comparable b a = true := by
  rw [comparable_iff] at comparable ⊢
  rcases comparable with equal | ⟨isNull, isReference⟩ | ⟨isNull, isReference⟩
  · exact .inl (standard.equal_symm equal)
  · exact .inr (.inr ⟨isNull, isReference⟩)
  · exact .inr (.inl ⟨isNull, isReference⟩)

private theorem comparable_of_equal (left : types.equal a a' = true)
    (right : types.equal b b' = true)
    (comparable : types.comparable a b = true) : types.comparable a' b' = true := by
  rw [comparable_iff] at comparable ⊢
  rcases comparable with equal | ⟨rfl, isReference⟩ | ⟨rfl, isReference⟩
  · exact .inl (standard.equal_trans (standard.equal_symm left) (standard.equal_trans equal right))
  · have isNull := eq_of_equal (.inr standard.isArray_null) (standard.equal_symm left)
    rw [standard.isReference_eq right] at isReference
    exact .inr (.inl ⟨isNull, isReference⟩)
  · have isNull := eq_of_equal (.inr standard.isArray_null) (standard.equal_symm right)
    rw [standard.isReference_eq left] at isReference
    exact .inr (.inr ⟨isNull, isReference⟩)

theorem comparable_congr (left : types.equal a a' = true) (right : types.equal b b' = true) :
    types.comparable a b = types.comparable a' b' := by
  rw [Bool.eq_iff_iff]
  constructor
  · exact standard.comparable_of_equal left right
  · exact standard.comparable_of_equal (standard.equal_symm left) (standard.equal_symm right)

end Standard

/-- Whatever the history of a type table, assignability is a partial order on its types up to
equality and comparability a symmetric relation, and equal types can replace each other in both. Only
references lie above `null`, and nothing else lies below it. An array lies below another one if they
are equal or the other one is an array of anything. -/
theorem assignable_order {types : TypeTable} (grown : initial.Grows types) :
    (∀ a, types.assignable a a = true) ∧
    (∀ a b c, types.assignable a b = true → types.assignable b c = true →
      types.assignable a c = true) ∧
    (∀ a b, types.assignable a b = true → types.assignable b a = true → types.equal a b = true) ∧
    (∀ a a' b b', types.equal a a' = true → types.equal b b' = true →
      types.assignable a b = types.assignable a' b' ∧
        types.comparable a b = types.comparable a' b') ∧
    (∀ b, types.assignable .null b = true ↔ types.isReference b = true) ∧
    (∀ a, types.assignable a .null = true ↔ a = .null) ∧
    (∀ a b, types.isArray a = true → types.isArray b = true →
      (types.assignable a b = true ↔ types.equal a b = true ∨ types.elemType b = .none)) ∧
    (∀ a b, types.comparable a b = types.comparable b a) ∧
    (∀ a b, types.comparable a b = true ↔ types.equal a b = true ∨
      (a = .null ∧ types.isReference b = true) ∨ (b = .null ∧ types.isReference a = true)) := by
  have standard := grown.standard
  refine ⟨assignable_refl, fun a b c => standard.assignable_trans,
    fun a b => standard.equal_of_assignable, fun a a' b b' left right => ?_,
    fun b => standard.null_assignable_iff, fun a => standard.assignable_null_iff,
    fun a b => standard.assignable_arrays_iff, fun a b => ?_, fun a b => comparable_iff⟩
  · exact ⟨standard.assignable_congr left right, standard.comparable_congr left right⟩
  · rw [Bool.eq_iff_iff]
    exact ⟨standard.comparable_symm, standard.comparable_symm⟩

/-- An array of anything, two arrays of numbers and an array of characters. -/
def openArrays : TypeTable :=
  let (_, types) := initial.addArray .none
  let (_, types) := types.addArray .int
  let (_, types) := types.addArray .int
  (types.addArray .char).2

theorem assignable_order_open : initial.Grows openArrays ∧
    openArrays.assignable .null ⟨6⟩ = true ∧ openArrays.assignable ⟨5⟩ ⟨4⟩ = true ∧
    openArrays.assignable ⟨4⟩ ⟨5⟩ = false ∧
    openArrays.assignable ⟨5⟩ ⟨7⟩ = openArrays.assignable ⟨6⟩ ⟨7⟩ := by
  have grown : initial.Grows openArrays := by
    apply tail _ (Step.array (by decide))
    apply tail _ (Step.array (by decide))
    apply tail _ (Step.array (by decide))
    exact .single (.array (by decide))
  obtain ⟨refl, _, antisymm, congr, aboveNull, _, arrays, _⟩ := assignable_order grown
  have above := (arrays ⟨5⟩ ⟨4⟩ (by decide) (by decide)).mpr (.inr (by decide))
  refine ⟨grown, (aboveNull _).mpr (by decide), above, ?_, ?_⟩
  · rw [← Bool.not_eq_true]
    intro below
    exact absurd (antisymm _ _ above below) (by decide)
  · exact (congr ⟨5⟩ ⟨6⟩ ⟨7⟩ ⟨7⟩ (by decide) (by decide)).1

end MicroJava.TypeTable

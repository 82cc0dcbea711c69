import Mathlib.Logic.Relation
import MicroJava.Proofs.Verification.Types

/-! # Equality of types

A type table grows by arrays, classes and the fields of classes, in any order. An array always comes
after its element type, so the comparison of two types takes off one layer after the other and comes
to an end. It tells whether both types have the same number of layers around the same type.
-/

namespace MicroJava.TypeTable

open TypeTable Relation.ReflTransGen

variable {types types' : TypeTable} {a b c base : TypeId} {n : Nat}

/-! ## Tables that grow -/

/-- One change of a type table. It mentions only types that the table has. -/
inductive Step (types : TypeTable) : TypeTable → Prop where
  | array {elem : TypeId} (known : types.contains elem = true) : Step types (types.addArray elem).2
  | classType : Step types types.addClass.2
  | fields {a : TypeId} (known : types.contains a = true) (fields : List EntityId) :
      Step types (types.setFields a fields)

/-- Whether a table comes from another one by changes. -/
def Grows : TypeTable → TypeTable → Prop := Relation.ReflTransGen Step

/-- Whether all types of a table are in another one, with the same layers. -/
structure Retains (types types' : TypeTable) : Prop where
  contains {a : TypeId} : types.contains a = true → types'.contains a = true
  kind {a : TypeId} : types.contains a = true → types'.kind a = types.kind a
  elemType {a : TypeId} : types.contains a = true → types'.elemType a = types.elemType a

/-- Whether every array comes after its element type. -/
def Layered (types : TypeTable) : Prop :=
  ∀ a, types.isArray a = true → (types.elemType a).index < a.index

theorem Retains.refl : types.Retains types := ⟨id, fun _ => rfl, fun _ => rfl⟩

theorem Retains.trans {types1 types2 types3 : TypeTable} (first : types1.Retains types2)
    (second : types2.Retains types3) : types1.Retains types3 where
  contains inside := second.contains (first.contains inside)
  kind inside := (second.kind (first.contains inside)).trans (first.kind inside)
  elemType inside := (second.elemType (first.contains inside)).trans (first.elemType inside)

theorem Retains.isArray (retains : types.Retains types') (inside : types.contains a = true) :
    types'.isArray a = types.isArray a := by
  rw [TypeTable.isArray, TypeTable.isArray, retains.kind inside]

private theorem contains_of_isArray (isArray : types.isArray a = true) : types.contains a = true :=
  contains_of_isReference (by simp [isReference, isArray])

private theorem info_add (new : TypeInfo) (inside : types.contains a = true) :
    (types.add new).2.info a = types.info a := by
  have inside : a.index < types.infos.size := of_decide_eq_true inside
  simp [info, add, Array.getD_eq_getD_getElem?, Array.getElem?_push, Nat.ne_of_lt inside]

private theorem retains_add (new : TypeInfo) : types.Retains (types.add new).2 where
  contains inside := by
    have inside : _ < types.infos.size := of_decide_eq_true inside
    simp only [contains, size, add, Array.size_push, decide_eq_true_eq]
    omega
  kind inside := by rw [kind, kind, info_add new inside]
  elemType inside := by rw [elemType, elemType, info_add new inside]

private theorem kind_setFields (a : TypeId) (fields : List EntityId) (b : TypeId) :
    (types.setFields a fields).kind b = types.kind b ∧
      (types.setFields a fields).elemType b = types.elemType b := by
  simp only [kind, elemType, info, setFields, Array.getD_eq_getD_getElem?, Array.getElem?_modify]
  split
  · cases types.infos[b.index]? <;> simp
  · simp

/-- A change keeps the types that are there. -/
theorem Step.retains (step : types.Step types') : types.Retains types' := by
  cases step with
  | array => exact retains_add _
  | classType => exact retains_add _
  | fields _ fields =>
    constructor
    · intro a inside
      have inside : a.index < types.infos.size := of_decide_eq_true inside
      apply decide_eq_true
      simpa [size, setFields] using inside
    · exact fun _ => (kind_setFields _ fields _).1
    · exact fun _ => (kind_setFields _ fields _).2

/-- An array in a table with one more type is that type or was there before. -/
theorem isArray_add {new : TypeInfo} (isArray : (types.add new).2.isArray a = true) :
    types.contains a = true ∨ a = (types.add new).1 ∧ new.kind = .array := by
  have inside : a.index < types.size + 1 := by
    simpa [contains, size, add] using contains_of_isArray isArray
  by_cases old : a.index < types.size
  · exact .inl (decide_eq_true old)
  · have last : a = (types.add new).1 := by
      cases a
      simp only [add, TypeId.mk.injEq] at old inside ⊢
      omega
    subst last
    rw [TypeTable.isArray, kind, info_add_new] at isArray
    exact .inr ⟨rfl, by simpa using isArray⟩

theorem Layered.add (layered : types.Layered) {new : TypeInfo}
    (known : new.kind = .array → types.contains (new.elem.getD .none) = true) :
    (types.add new).2.Layered := by
  intro a isArray
  rcases isArray_add isArray with inside | ⟨rfl, newArray⟩
  · rw [(retains_add new).isArray inside] at isArray
    rw [(retains_add new).elemType inside]
    exact layered a isArray
  · rw [elemType, info_add_new]
    exact of_decide_eq_true (known newArray)

/-- A change keeps arrays behind their element types. -/
theorem Step.layered (step : types.Step types') (layered : types.Layered) : types'.Layered := by
  cases step with
  | array known => exact layered.add fun _ => known
  | classType => exact layered.add (by simp)
  | fields _ fields =>
    intro a isArray
    obtain ⟨kind, elem⟩ := @kind_setFields types _ fields a
    rw [elem]
    apply layered
    rwa [TypeTable.isArray, kind] at isArray

theorem Grows.retains (grows : types.Grows types') : types.Retains types' := by
  induction grows with
  | refl => exact .refl
  | tail _ step ih => exact ih.trans step.retains

theorem Grows.layered (grows : types.Grows types') (layered : types.Layered) : types'.Layered := by
  induction grows with
  | refl => exact layered
  | tail _ step ih => exact step.layered ih

theorem initial_layered : initial.Layered := by
  intro a isArray
  have inside : a.index < 4 := of_decide_eq_true (contains_of_isArray isArray)
  obtain ⟨index⟩ := a
  have noArray : ∀ i < 4, initial.isArray ⟨i⟩ = false := by decide
  exact absurd isArray (by simp [noArray index inside])

/-! ## Layers -/

/-- What is left of a type when its array layers, which are counted, are taken off. -/
inductive Strips (types : TypeTable) : TypeId → Nat → TypeId → Prop where
  | bare {a : TypeId} (noArray : types.isArray a = false) : Strips types a 0 a
  | layer {a base : TypeId} {n : Nat} (isArray : types.isArray a = true)
      (inner : Strips types (types.elemType a) n base) : Strips types a (n + 1) base

/-- The layers of a type can be taken off. -/
theorem Layered.exists_strips (layered : types.Layered) (a : TypeId) :
    ∃ n base, types.Strips a n base := by
  obtain ⟨index⟩ := a
  induction index using Nat.strongRecOn with
  | ind index ih =>
    cases isArray : types.isArray ⟨index⟩ with
    | false => exact ⟨0, _, .bare isArray⟩
    | true =>
      obtain ⟨n, base, inner⟩ := ih _ (layered _ isArray)
      exact ⟨n + 1, base, .layer isArray inner⟩

/-- There is only one way to take off the layers of a type. -/
theorem Strips.unique {k : Nat} (first : types.Strips a n b) (second : types.Strips a k c) :
    n = k ∧ b = c := by
  induction first generalizing k with
  | bare noArray =>
    cases second with
    | bare => exact ⟨rfl, rfl⟩
    | layer isArray => simp [noArray] at isArray
  | layer isArray _ ih =>
    cases second with
    | bare noArray => simp [isArray] at noArray
    | layer _ inner =>
      obtain ⟨same, rfl⟩ := ih inner
      exact ⟨by omega, rfl⟩

/-! ## Comparing layer by layer -/

/-- The comparison of two types, in which a layer is taken off both as long as both are arrays. It
has a result only if it comes to an end. -/
inductive Compares (types : TypeTable) : TypeId → TypeId → Bool → Prop where
  | layers {a b : TypeId} {result : Bool} (arrays : (types.isArray a && types.isArray b) = true)
      (inner : Compares types (types.elemType a) (types.elemType b) result) :
      Compares types a b result
  | bare {a b : TypeId} (notBoth : (types.isArray a && types.isArray b) = false) :
      Compares types a b (a == b)

theorem Compares.unique {first second : Bool} (compares : types.Compares a b first)
    (compares' : types.Compares a b second) : first = second := by
  induction compares with
  | layers arrays _ ih =>
    cases compares' with
    | layers _ inner => exact ih inner
    | bare notBoth => simp [arrays] at notBoth
  | bare notBoth =>
    cases compares' with
    | layers arrays => simp [notBoth] at arrays
    | bare => rfl

section

variable (layered : types.Layered)

include layered

/-- As many rounds are enough as there are types before an array. -/
theorem Layered.compares_equalWithin {fuel : Nat}
    (enough : types.isArray a = true → a.index ≤ fuel) :
    types.Compares a b (types.equalWithin fuel a b) := by
  induction fuel generalizing a b with
  | zero =>
    apply Compares.bare
    rw [Bool.and_eq_false_iff, ← Bool.not_eq_true]
    left
    intro isArray
    have := layered a isArray
    have := enough isArray
    omega
  | succ fuel ih =>
    cases arrays : types.isArray a && types.isArray b with
    | true =>
      rw [equalWithin, if_pos arrays]
      apply Compares.layers arrays
      apply ih
      intro _
      have isArray := (Bool.and_eq_true_iff.mp arrays).1
      have := layered a isArray
      have := enough isArray
      omega
    | false =>
      rw [equalWithin, if_neg (by simp [arrays])]
      exact .bare arrays

/-- The comparison of two types comes to an end. -/
theorem Layered.compares (a b : TypeId) : types.Compares a b (types.equal a b) := by
  apply layered.compares_equalWithin
  intro isArray
  have inside : a.index < types.size := of_decide_eq_true (contains_of_isArray isArray)
  omega

theorem Compares.iff_strips {result : Bool} (compares : types.Compares a b result) :
    result = true ↔ ∃ n base, types.Strips a n base ∧ types.Strips b n base := by
  induction compares with
  | layers arrays _ ih =>
    rw [Bool.and_eq_true] at arrays
    rw [ih]
    constructor
    · rintro ⟨n, base, left, right⟩
      exact ⟨n + 1, base, .layer arrays.1 left, .layer arrays.2 right⟩
    · rintro ⟨n, base, left, right⟩
      cases left with
      | bare noArray => simp [arrays.1] at noArray
      | layer _ left =>
        cases right with
        | layer _ right => exact ⟨_, base, left, right⟩
  | @bare a b notBoth =>
    rw [beq_iff_eq]
    constructor
    · rintro rfl
      obtain ⟨n, base, strips⟩ := layered.exists_strips a
      exact ⟨n, base, strips, strips⟩
    · rintro ⟨n, base, left, right⟩
      cases left with
      | bare =>
        cases right
        rfl
      | layer isArray =>
        cases right with
        | layer isArray' => simp [isArray, isArray'] at notBoth

theorem Layered.equal_iff_strips (a b : TypeId) :
    types.equal a b = true ↔ ∃ n base, types.Strips a n base ∧ types.Strips b n base :=
  (layered.compares a b).iff_strips layered

theorem Layered.equal_arrays (isArray : types.isArray a = true)
    (isArray' : types.isArray b = true) :
    types.equal a b = types.equal (types.elemType a) (types.elemType b) :=
  (layered.compares a b).unique (.layers (by simp [isArray, isArray']) (layered.compares _ _))

theorem Layered.equal_bare (notBoth : (types.isArray a && types.isArray b) = false) :
    types.equal a b = (a == b) :=
  (layered.compares a b).unique (.bare notBoth)

theorem Layered.equivalence : Equivalence fun a b => types.equal a b = true where
  refl a := equalWithin_refl _ a
  symm equal := by
    rw [layered.equal_iff_strips] at equal ⊢
    obtain ⟨n, base, left, right⟩ := equal
    exact ⟨n, base, right, left⟩
  trans first second := by
    rw [layered.equal_iff_strips] at first second ⊢
    obtain ⟨n, base, left, middle⟩ := first
    obtain ⟨k, base', middle', right⟩ := second
    obtain ⟨rfl, rfl⟩ := middle.unique middle'
    exact ⟨n, base, left, right⟩

/-! ## Larger tables -/

theorem Layered.contains_elemType (isArray : types.isArray a = true) :
    types.contains (types.elemType a) = true := by
  have inside : a.index < types.size := of_decide_eq_true (contains_of_isArray isArray)
  have := layered a isArray
  apply decide_eq_true
  omega

end

/-- The comparison of two types looks only at types that come before them. -/
theorem Compares.retains (retains : types.Retains types') (layered : types.Layered) {result : Bool}
    (compares : types.Compares a b result) (inside : types.contains a = true)
    (inside' : types.contains b = true) : types'.Compares a b result := by
  induction compares with
  | layers arrays _ ih =>
    have both := Bool.and_eq_true_iff.mp arrays
    apply Compares.layers
    · rw [retains.isArray inside, retains.isArray inside', arrays]
    · rw [retains.elemType inside, retains.elemType inside']
      exact ih (layered.contains_elemType both.1) (layered.contains_elemType both.2)
  | bare notBoth =>
    apply Compares.bare
    rw [retains.isArray inside, retains.isArray inside', notBoth]

theorem Grows.equal_eq (grows : types.Grows types') (layered : types.Layered)
    (inside : types.contains a = true) (inside' : types.contains b = true) :
    types'.equal a b = types.equal a b :=
  ((grows.layered layered).compares a b).unique
    ((layered.compares a b).retains grows.retains layered inside inside')

/-- New arrays of two types are equal if the types are. -/
theorem Layered.equal_addArray (layered : types.Layered) (inside : types.contains a = true)
    (inside' : types.contains b = true) :
    ((types.addArray a).2.addArray b).2.equal (types.addArray a).1 ((types.addArray a).2.addArray b).1 =
      types.equal a b := by
  have first : types.Step (types.addArray a).2 := .array inside
  have second : (types.addArray a).2.Step ((types.addArray a).2.addArray b).2 :=
    .array (first.retains.contains inside')
  have grows : types.Grows ((types.addArray a).2.addArray b).2 := .tail (.single first) second
  obtain ⟨isArray, elem⟩ := isArray_addArray types a
  obtain ⟨isArray', elem'⟩ := isArray_addArray (types.addArray a).2 b
  have kept := contains_of_isArray isArray
  rw [← second.retains.isArray kept] at isArray
  rw [← second.retains.elemType kept] at elem
  rw [(grows.layered layered).equal_arrays isArray isArray', elem, elem']
  exact grows.equal_eq layered inside inside'

/-- Whatever the history of a type table, comparing two types comes to an end, and its result says
whether the types have as many array layers around the same type. So equality of types is an
equivalence, goes on to arrays, and does not depend on what the table gets later. -/
theorem equal_structural {types : TypeTable} (grown : initial.Grows types) :
    (∀ a b, types.Compares a b (types.equal a b)) ∧
    (∀ a, ∃! stripped : Nat × TypeId, types.Strips a stripped.1 stripped.2) ∧
    (∀ a b, types.equal a b = true ↔ ∃ n base, types.Strips a n base ∧ types.Strips b n base) ∧
    (Equivalence fun a b => types.equal a b = true) ∧
    (∀ a b, types.contains a = true → types.contains b = true →
      let (x, types₁) := types.addArray a
      let (y, types₂) := types₁.addArray b
      types₂.equal x y = types.equal a b) ∧
    (∀ types', types.Grows types' → ∀ a b, types.contains a = true → types.contains b = true →
      types'.equal a b = types.equal a b) := by
  have layered := grown.layered initial_layered
  refine ⟨layered.compares, fun a => ?_, layered.equal_iff_strips, layered.equivalence,
    fun a b => layered.equal_addArray, fun types' grows a b => grows.equal_eq layered⟩
  obtain ⟨n, base, strips⟩ := layered.exists_strips a
  refine ⟨(n, base), strips, fun other strips' => ?_⟩
  obtain ⟨sameCount, sameBase⟩ := strips'.unique strips
  exact Prod.ext sameCount sameBase

/-- Two arrays of arrays of a class, and a class whose fields were set. -/
def nestedArrays : TypeTable :=
  let (c, types) := initial.addClass
  let (x, types) := types.addArray c
  let (_, types) := types.addArray x
  let types := types.setFields c [⟨10⟩]
  let (y, types) := types.addArray c
  (types.addArray y).2

private theorem nestedArrays_grown : initial.Grows nestedArrays := by
  apply tail _ (.array (by decide))
  apply tail _ (.array (by decide))
  apply tail _ (.fields (by decide) _)
  apply tail _ (.array (by decide))
  apply tail _ (.array (by decide))
  exact .single .classType

theorem equal_structural_nested : initial.Grows nestedArrays ∧
    (∃ n base, nestedArrays.Strips ⟨6⟩ n base ∧ nestedArrays.Strips ⟨8⟩ n base) ∧
    ¬ (∃ n base, nestedArrays.Strips ⟨5⟩ n base ∧ nestedArrays.Strips ⟨8⟩ n base) ∧
    nestedArrays.addClass.2.equal ⟨6⟩ ⟨8⟩ = true := by
  obtain ⟨_, _, structural, _, _, later⟩ := equal_structural nestedArrays_grown
  have equal : nestedArrays.equal ⟨6⟩ ⟨8⟩ = true := by decide
  have different : ¬ nestedArrays.equal ⟨5⟩ ⟨8⟩ = true := by decide
  refine ⟨nestedArrays_grown, (structural _ _).mp equal, fun same => ?_, ?_⟩
  · exact different ((structural _ _).mpr same)
  · rw [later _ (.single .classType) _ _ (by decide) (by decide)]
    exact equal

end MicroJava.TypeTable

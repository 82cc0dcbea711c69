import MicroJava.Proofs.Translation.Declaration

/-! # What symbol tables keep

A table grows while a program is compiled. `SymbolTable.Persists` says that everything in a table is
still the same in a later one, and `SymbolTable.Widens` that only array types were added. What every
step of a declaration preserves, the declaration preserves.
-/

namespace MicroJava

/-! ## Reading a changed table -/

namespace TypeTable

variable {types : TypeTable} {a : TypeId}

theorem fields_add {new : TypeInfo} (none : new.fields = []) (a : TypeId) :
    (types.add new).2.fields a = types.fields a := by
  simp only [fields, info, add, Array.getD_eq_getD_getElem?, Array.getElem?_push]
  split
  · next last => simp [last, none, default, instInhabitedTypeInfo.default]
  · rfl

theorem fields_setFields (fields : List EntityId) (inside : types.contains a = true) (b : TypeId) :
    (types.setFields a fields).fields b = if b = a then fields else types.fields b := by
  have inside : a.index < types.infos.size := of_decide_eq_true inside
  by_cases same : b = a
  · subst same
    simp [TypeTable.fields, info, setFields, Array.getD_eq_getD_getElem?, Array.getElem_modify,
      inside]
  · have different : ¬ a.index = b.index := by
      cases a
      cases b
      simpa [eq_comm] using same
    simp [TypeTable.fields, info, setFields, Array.getD_eq_getD_getElem?, Array.getElem?_modify,
      different, same]

theorem mem_fields_setFields {fields : List EntityId} {b : TypeId} {id : EntityId}
    (member : id ∈ (types.setFields a fields).fields b) : id ∈ fields ∨ id ∈ types.fields b := by
  simp only [TypeTable.fields, info, setFields, Array.getD_eq_getD_getElem?,
    Array.getElem?_modify] at member ⊢
  split at member
  · cases found : types.infos[b.index]? with
    | none =>
      rw [found] at member
      exact .inr member
    | some info =>
      rw [found] at member
      exact .inl member
  · exact .inr member

end TypeTable

namespace SymbolTable

variable {t u : SymbolTable} {id other : EntityId} {kind : EntityKind} {name : String} {type : TypeId}

@[simp] theorem contains_next : t.contains t.next = false := by
  simp [contains, next]

@[simp] theorem entity_addArray (a : TypeId) : (t.addArray a).2.entity id = t.entity id := rfl

@[simp] theorem contains_addArray (a : TypeId) : (t.addArray a).2.contains id = t.contains id := rfl

@[simp] theorem scopes_addArray (a : TypeId) : (t.addArray a).2.scopes = t.scopes := rfl

@[simp] theorem entity_openScope : t.openScope.entity id = t.entity id := rfl

@[simp] theorem contains_openScope : t.openScope.contains id = t.contains id := rfl

@[simp] theorem entity_leave : t.leave.entity id = t.entity id := rfl

@[simp] theorem contains_leave : t.leave.contains id = t.contains id := rfl

theorem contains_enter :
    (t.enter kind name type).contains id = true ↔ t.contains id = true ∨ id = t.next := by
  cases id
  simp only [contains, enter, next, Array.size_push, decide_eq_true_eq, EntityId.mk.injEq]
  omega

@[simp] theorem entity_enter_next :
    (t.enter kind name type).entity t.next = t.newEntity kind name type := by
  simp [entity, enter, next, Array.getD_eq_getD_getElem?]

theorem entity_enter (inside : t.contains id = true) :
    (t.enter kind name type).entity id = t.entity id := by
  have inside : id.index < t.entities.size := by simpa [contains] using inside
  simp [entity, enter, Array.getD_eq_getD_getElem?, Array.getElem?_push, Nat.ne_of_lt inside]

@[simp] theorem contains_modify (f : Entity → Entity) :
    (t.modify id f).contains other = t.contains other := by
  simp [contains, modify]

@[simp] theorem entity_modify (f : Entity → Entity) (inside : t.contains id = true) :
    (t.modify id f).entity id = f (t.entity id) := by
  have inside : id.index < t.entities.size := by simpa [contains] using inside
  simp [entity, modify, Array.getD_eq_getD_getElem?, Array.getElem_modify, inside]

theorem entity_modify_ne (f : Entity → Entity) (different : other ≠ id) :
    (t.modify id f).entity other = t.entity other := by
  have different : ¬ id.index = other.index := by
    cases id
    cases other
    simpa [eq_comm] using different
  simp [entity, modify, Array.getD_eq_getD_getElem?, Array.getElem?_modify, different]

/-- What a change of entities keeps is the same in the changed table. -/
theorem modify_keeps {β : Type} {part : Entity → β} {f : Entity → Entity}
    (keeps : ∀ e, part (f e) = part e) (id other : EntityId) :
    part ((t.modify id f).entity other) = part (t.entity other) := by
  simp only [entity, modify, Array.getD_eq_getD_getElem?, Array.getElem?_modify]
  split
  · cases t.entities[other.index]? with
    | none => rfl
    | some e => exact keeps e
  · rfl

theorem openScope_modify (f : Entity → Entity) :
    t.openScope.modify id f = (t.modify id f).openScope := rfl

/-! ## Tables that keep what another one has -/

/-- Whether everything in a table is unchanged in another one. -/
structure Persists (t t' : SymbolTable) : Prop where
  size : t.entities.size ≤ t'.entities.size
  entity : ∀ id, t.contains id = true → t'.entity id = t.entity id
  typeCount : t.types.size ≤ t'.types.size
  info : ∀ a, t.types.contains a = true → t'.types.info a = t.types.info a

theorem Persists.refl (t : SymbolTable) : t.Persists t :=
  ⟨Nat.le_refl _, fun _ _ => rfl, Nat.le_refl _, fun _ _ => rfl⟩

theorem Persists.contains (persists : t.Persists u) (inside : t.contains id = true) :
    u.contains id = true := by
  have := persists.size
  simp only [SymbolTable.contains, decide_eq_true_eq] at *
  omega

theorem Persists.contains_type (persists : t.Persists u) {a : TypeId}
    (inside : t.types.contains a = true) : u.types.contains a = true := by
  have := persists.typeCount
  simp only [TypeTable.contains, decide_eq_true_eq] at *
  omega

theorem Persists.trans {t1 t2 t3 : SymbolTable} (first : t1.Persists t2) (second : t2.Persists t3) :
    t1.Persists t3 where
  size := Nat.le_trans first.size second.size
  entity id inside := (second.entity id (first.contains inside)).trans (first.entity id inside)
  typeCount := Nat.le_trans first.typeCount second.typeCount
  info a inside := (second.info a (first.contains_type inside)).trans (first.info a inside)

section

variable (persists : t.Persists u)
include persists

theorem Persists.scopes (scopes : List Scope) : t.Persists { u with scopes } :=
  ⟨persists.size, persists.entity, persists.typeCount, persists.info⟩

theorem Persists.enter : t.Persists (u.enter kind name type) where
  size := by
    have := persists.size
    simp only [SymbolTable.enter, Array.size_push]
    omega
  entity id inside := by
    rw [entity_enter (persists.contains inside)]
    exact persists.entity id inside
  typeCount := persists.typeCount
  info := persists.info

/-- Changing what is new keeps what is old. -/
theorem Persists.modify (f : Entity → Entity) (later : t.entities.size ≤ id.index) :
    t.Persists (u.modify id f) where
  size := by
    simp only [SymbolTable.modify, Array.size_modify]
    exact persists.size
  entity other inside := by
    rw [entity_modify_ne]
    · exact persists.entity other inside
    · rintro rfl
      simp only [SymbolTable.contains, decide_eq_true_eq] at inside
      omega
  typeCount := persists.typeCount
  info := persists.info

theorem Persists.addType (info : TypeInfo) :
    t.Persists { u with types := (u.types.add info).2 } where
  size := persists.size
  entity := persists.entity
  typeCount := by
    have := persists.typeCount
    simp only [TypeTable.add, TypeTable.size, Array.size_push] at *
    omega
  info a inside := by
    have contained : a.index < u.types.infos.size :=
      of_decide_eq_true (persists.contains_type inside)
    rw [← persists.info a inside]
    simp [TypeTable.info, TypeTable.add, Array.getD_eq_getD_getElem?, Array.getElem?_push,
      Nat.ne_of_lt contained]

theorem Persists.setFields (fields : List EntityId) (later : t.types.size ≤ type.index) :
    t.Persists (u.setFields type fields) where
  size := persists.size
  entity := persists.entity
  typeCount := by
    have := persists.typeCount
    simpa [SymbolTable.setFields, TypeTable.setFields, TypeTable.size] using this
  info a inside := by
    have different : ¬ type.index = a.index := by
      simp only [TypeTable.contains, decide_eq_true_eq] at inside
      omega
    rw [← persists.info a inside]
    simp [SymbolTable.setFields, TypeTable.setFields, TypeTable.info, Array.getD_eq_getD_getElem?,
      Array.getElem?_modify, different]

end

/-! ## Tables with more array types -/

/-- Whether a table differs from another one only by array types that were added. -/
inductive Widens (t : SymbolTable) : SymbolTable → Prop where
  | refl : Widens t t
  | array {middle : SymbolTable} (elem : TypeId) (front : Widens t middle) :
      Widens t (middle.addArray elem).2

theorem Widens.trans {t1 t2 t3 : SymbolTable} (first : t1.Widens t2) (second : t2.Widens t3) :
    t1.Widens t3 := by
  induction second with
  | refl => exact first
  | array elem _ ih => exact .array elem ih

section

variable (widens : t.Widens u)

include widens

theorem Widens.entities : u.entities = t.entities := by
  induction widens with
  | refl => rfl
  | array elem _ ih => exact ih

theorem Widens.scopes : u.scopes = t.scopes := by
  induction widens with
  | refl => rfl
  | array elem _ ih => exact ih

@[simp] theorem Widens.entity (id : EntityId) : u.entity id = t.entity id := by
  simp only [SymbolTable.entity, widens.entities]

theorem Widens.lookup (name : String) : u.lookup? name = t.lookup? name := by
  simp only [lookup?, search, widens.scopes, widens.entity]

theorem Widens.contains (id : EntityId) : u.contains id = t.contains id := by
  simp only [SymbolTable.contains, widens.entities]

theorem Widens.persists : t.Persists u := by
  induction widens with
  | refl => exact .refl t
  | array elem _ ih => exact ih.addType _

theorem Widens.preserves {p : SymbolTable → Prop} (array : ∀ t elem, p t → p (t.addArray elem).2)
    (holds : p t) : p u := by
  induction widens with
  | refl => exact holds
  | array elem _ ih => exact array _ _ ih

end

/-! ## Steps of declarations -/

/-- Whether a property of tables is preserved by every step that declares variables. -/
structure Hereditary (p : SymbolTable → Prop) : Prop where
  array : ∀ t elem, p t → p (t.addArray elem).2
  variable_ : ∀ t name type, t.Fresh name → p t → p (t.enter .var name type)

theorem hereditary_persists (t : SymbolTable) : Hereditary t.Persists where
  array _ _ persists := persists.addType _
  variable_ _ _ _ _ persists := persists.enter

/-- Whether a relation between two tables and the names of the variables that are declared from one to
the other holds for every such step, and for steps one after the other. -/
structure Collects (r : SymbolTable → List String → SymbolTable → Prop) : Prop where
  refl : ∀ t, r t [] t
  trans : ∀ {t names u more v}, r t names u → r u more v → r t (names ++ more) v
  array : ∀ {t names u} elem, r t names u → r t names (u.addArray elem).2
  variable_ : ∀ t name type, t.Fresh name → r t [name] (t.enter .var name type)

theorem Hereditary.collects {p : SymbolTable → Prop} (hereditary : Hereditary p) :
    Collects fun t _ u => p t → p u where
  refl _ := id
  trans first second := second ∘ first
  array elem first := hereditary.array _ elem ∘ first
  variable_ := hereditary.variable_

/-- Whether a change of entities keeps what they are, their names and their places. -/
def KeepsPlace (f : Entity → Entity) : Prop :=
  ∀ e, (f e).kind = e.kind ∧ (f e).name = e.name ∧ (f e).adr = e.adr ∧ (f e).level = e.level

end SymbolTable

namespace Syntax

open SymbolTable

variable {p : SymbolTable → Prop} {t t' : SymbolTable} {type : TypeId}
  {r : SymbolTable → List String → SymbolTable → Prop} {ps : List Parameter} {last : EntityId}
  {method : EntityId}

theorem TypeName.Resolves.preserves {n : TypeName} (resolves : n.Resolves t type t')
    (array : ∀ t elem, p t → p (t.addArray elem).2) (holds : p t) : p t' := by
  cases resolves with
  | plain => exact holds
  | array => exact array _ _ holds

theorem TypeName.Resolves.collects {n : TypeName} (resolves : n.Resolves t type t')
    (steps : Collects r) : r t [] t' := by
  cases resolves with
  | plain => exact steps.refl t
  | array => exact steps.array _ (steps.refl t)

theorem DeclareNames.collects {names : List String} (declares : DeclareNames type t names t')
    (steps : Collects r) : r t names t' := by
  induction declares with
  | nil => exact steps.refl _
  | cons fresh _ ih => exact steps.trans (steps.variable_ _ _ _ fresh) ih

theorem DeclareNames.preserves {names : List String} (declares : DeclareNames type t names t')
    (hereditary : Hereditary p) (holds : p t) : p t' :=
  declares.collects hereditary.collects holds

theorem VarDecl.DeclareAll.collects {ds : List VarDecl} (declares : VarDecl.DeclareAll t ds t')
    (steps : Collects r) : r t (ds.flatMap VarDecl.names) t' := by
  induction declares with
  | nil => exact steps.refl _
  | cons resolved names _ ih =>
    exact steps.trans (steps.trans (resolved.collects steps) (names.collects steps)) ih

theorem VarDecl.DeclareAll.preserves {ds : List VarDecl} (declares : VarDecl.DeclareAll t ds t')
    (hereditary : Hereditary p) (holds : p t) : p t' :=
  declares.collects hereditary.collects holds

theorem Parameter.DeclareAll.collects (declares : Parameter.DeclareAll t ps last t')
    (steps : Collects r) : r t (ps.map (·.name)) t' := by
  induction declares with
  | one resolved fresh =>
    exact steps.trans (resolved.collects steps) (steps.variable_ _ _ _ fresh)
  | cons resolved fresh _ ih =>
    exact steps.trans (steps.trans (resolved.collects steps) (steps.variable_ _ _ _ fresh)) ih

theorem Parameter.DeclareAll.preserves (declares : Parameter.DeclareAll t ps last t')
    (hereditary : Hereditary p) (holds : p t) : p t' := declares.collects hereditary.collects holds

/-- The last parameter is new. -/
theorem Parameter.DeclareAll.last_new (declares : Parameter.DeclareAll t ps last t') :
    t.entities.size ≤ last.index := by
  induction declares with
  | one resolved _ =>
    exact (resolved.preserves (hereditary_persists _).array (.refl _)).size
  | cons resolved _ _ ih =>
    have first := (resolved.preserves (hereditary_persists _).array (.refl _)).size
    simp only [enter, Array.size_push] at ih
    omega

theorem ResultType.collects {n : Option TypeName} (result : ResultType t n type t')
    (steps : Collects r) : r t [] t' := by
  cases result with
  | void => exact steps.refl t
  | type resolved => exact resolved.collects steps

theorem ResultType.preserves {n : Option TypeName} (result : ResultType t n type t')
    (array : ∀ t elem, p t → p (t.addArray elem).2) (holds : p t) : p t' := by
  cases result with
  | void => exact holds
  | type resolved => exact resolved.preserves array holds

theorem Decl.DeclareAll.collects {limits : Limits} {ds : List Decl} {names : Decl → List String}
    (declares : Decl.DeclareAll limits t ds t') (steps : Collects r)
    (declare : ∀ {t d t'}, Decl.Declares limits t d t' → r t (names d) t') :
    r t (ds.flatMap names) t' := by
  induction declares with
  | nil => exact steps.refl _
  | cons first _ ih => exact steps.trans (declare first) ih

/-- Parameters are declared like variables. Only what is new may change otherwise. -/
theorem Parameters.Declare.collects {ps : Option Parameters}
    (declares : Parameters.Declare method t ps t') (steps : Collects r)
    (modify : ∀ {names u id f}, id = method ∨ t.entities.size ≤ id.index → KeepsPlace f →
      r t names u → r t names (u.modify id f)) : r t (ps.elim [] (·.all.map (·.name))) t' := by
  cases declares with
  | none => exact steps.refl t
  | some declared =>
    have named := declared.collects steps
    refine modify (.inl rfl) (fun _ => ⟨rfl, rfl, rfl, rfl⟩) ?_
    split
    · refine modify (.inl rfl) ?_ (modify (.inr declared.last_new) ?_ (steps.array _ named)) <;>
        exact fun _ => ⟨rfl, rfl, rfl, rfl⟩
    · exact named

theorem Parameters.Declare.keeps {ps : Option Parameters}
    (declares : Parameters.Declare method t ps t') (hereditary : Hereditary p)
    (modify : ∀ {u id f}, id = method ∨ t.entities.size ≤ id.index → KeepsPlace f → p u →
      p (u.modify id f)) (holds : p t) : p t' :=
  declares.collects hereditary.collects (fun new keeps first => modify new keeps ∘ first) holds

theorem Parameters.Declare.persists {u : SymbolTable} {ps : Option Parameters}
    (declares : Parameters.Declare method t ps t') (persists : u.Persists t)
    (later : u.entities.size ≤ method.index) : u.Persists t' := by
  refine declares.keeps (hereditary_persists u) (fun new _ persists' => ?_) persists
  have size := persists.size
  exact persists'.modify _ (by rcases new with rfl | new <;> omega)

end Syntax

end MicroJava

import MicroJava.Proofs.Translation.Callees

/-! # Types of declarations

The types that a program can declare variables of, and what holds of the types in every symbol table
of a compilation without problems: variables have such a type, fields are numbered in their class,
and a method has as many parameters as it counts. What holds of types goes on to hold while the table
grows.
-/

namespace MicroJava

open TypeTable

namespace TypeTable

variable {types types' : TypeTable} {a b : TypeId}

/-- Whether variables can be declared of a type. -/
inductive IsData (types : TypeTable) : TypeId → Prop where
  | int : IsData types .int
  | char : IsData types .char
  | object {a : TypeId} (isClass : types.isClass a = true) (notNull : a ≠ .null) : IsData types a
  | array {a : TypeId} (isArray : types.isArray a = true) (elem : IsData types (types.elemType a)) :
      IsData types a

/-- Whether references in a type table are of the same sort in another one. -/
def Keeps (types types' : TypeTable) : Prop :=
  ∀ a, types.isReference a = true →
    types'.kind a = types.kind a ∧ types'.elemType a = types.elemType a

section

variable (keeps : types.Keeps types')
include keeps

theorem Keeps.isArray (isArray : types.isArray a = true) :
    types'.isArray a = true ∧ types'.elemType a = types.elemType a := by
  obtain ⟨kind, elem⟩ := keeps a (by simp [isReference, isArray])
  exact ⟨by simpa [TypeTable.isArray, kind] using isArray, elem⟩

theorem Keeps.isClass (isClass : types.isClass a = true) : types'.isClass a = true := by
  have kind := (keeps a (by simp [isReference, isClass])).1
  simpa [TypeTable.isClass, kind] using isClass

theorem Keeps.isReference (isReference : types.isReference a = true) :
    types'.isReference a = true := by
  have kind := (keeps a isReference).1
  simpa [TypeTable.isReference, TypeTable.isArray, TypeTable.isClass, kind] using isReference

theorem Keeps.isData (isData : types.IsData a) : types'.IsData a := by
  induction isData with
  | int => exact .int
  | char => exact .char
  | object isClass notNull => exact .object (keeps.isClass isClass) notNull
  | array isArray _ ih =>
    obtain ⟨isArray, elem⟩ := keeps.isArray isArray
    exact .array isArray (elem ▸ ih)

end

theorem equalWithin_refl (fuel : Nat) (a : TypeId) : types.equalWithin fuel a a = true := by
  induction fuel generalizing a with
  | zero => simp [equalWithin]
  | succ fuel ih => simp [equalWithin, ih]

theorem assignable_refl (a : TypeId) : types.assignable a a = true := by
  simp [assignable, equal, equalWithin_refl]

section

variable (keeps : types.Keeps types')

include keeps

/-- Types that are equal stay equal, also when more layers are compared. -/
theorem Keeps.equalWithin {fuel fuel' : Nat} (more : fuel ≤ fuel')
    (equal : types.equalWithin fuel a b = true) : types'.equalWithin fuel' a b = true := by
  induction fuel generalizing fuel' a b with
  | zero =>
    obtain rfl : a = b := by simpa [equalWithin] using equal
    exact equalWithin_refl _ a
  | succ fuel ih =>
    obtain ⟨fuel', rfl⟩ : ∃ n, fuel' = n + 1 := ⟨fuel' - 1, by omega⟩
    rw [equalWithin] at equal
    split at equal
    · next arrays =>
      rw [Bool.and_eq_true] at arrays
      obtain ⟨isArray, elem⟩ := keeps.isArray arrays.1
      obtain ⟨isArray', elem'⟩ := keeps.isArray arrays.2
      rw [equalWithin, isArray, isArray', elem, elem']
      exact ih (by omega) equal
    · obtain rfl : a = b := by simpa using equal
      exact equalWithin_refl _ a

theorem Keeps.equal (size : types.size ≤ types'.size) (equal : types.equal a b = true) :
    types'.equal a b = true := keeps.equalWithin size equal

theorem Keeps.assignable (size : types.size ≤ types'.size)
    (assignable : types.assignable a b = true) : types'.assignable a b = true := by
  simp only [TypeTable.assignable, Bool.or_eq_true, Bool.and_eq_true] at assignable ⊢
  rcases assignable with (equal | ⟨isNull, isReference⟩) | ⟨⟨isArray, isArray'⟩, open_⟩
  · exact .inl (.inl (keeps.equal size equal))
  · exact .inl (.inr ⟨isNull, keeps.isReference isReference⟩)
  · obtain ⟨isArray', elem⟩ := keeps.isArray isArray'
    exact .inr ⟨⟨(keeps.isArray isArray).1, isArray'⟩, elem ▸ open_⟩

theorem Keeps.comparable (size : types.size ≤ types'.size)
    (comparable : types.comparable a b = true) : types'.comparable a b = true := by
  simp only [TypeTable.comparable, Bool.or_eq_true, Bool.and_eq_true] at comparable ⊢
  rcases comparable with (equal | ⟨isNull, isReference⟩) | ⟨isNull, isReference⟩
  · exact .inl (.inl (keeps.equal size equal))
  · exact .inl (.inr ⟨isNull, keeps.isReference isReference⟩)
  · exact .inr ⟨isNull, keeps.isReference isReference⟩

end

/-! ## Changed tables -/

theorem contains_of_isReference (isReference : types.isReference a = true) :
    types.contains a = true := by
  cases inside : types.contains a with
  | true => rfl
  | false =>
    have outside : ¬ a.index < types.infos.size := of_decide_eq_false inside
    simp [TypeTable.isReference, isArray, isClass, kind, info, Array.getD, outside, default,
      instInhabitedTypeInfo.default, instInhabitedTypeKind.default] at isReference

private theorem contains_of_mem_fields {field : EntityId} (member : field ∈ types.fields a) :
    types.contains a = true := by
  cases inside : types.contains a with
  | true => rfl
  | false =>
    have outside : ¬ a.index < types.infos.size := of_decide_eq_false inside
    simp [fields, info, Array.getD, outside, default, instInhabitedTypeInfo.default] at member

theorem info_add_new (types : TypeTable) (new : TypeInfo) :
    (types.add new).2.info (types.add new).1 = new := by
  simp [info, add, size, Array.getD_eq_getD_getElem?]

private theorem keeps_add (new : TypeInfo) : types.Keeps (types.add new).2 := by
  intro a isReference
  have inside : a.index < types.infos.size :=
    of_decide_eq_true (contains_of_isReference isReference)
  simp [kind, elemType, info, add, Array.getD_eq_getD_getElem?, Array.getElem?_push,
    Nat.ne_of_lt inside]

theorem isArray_addArray (types : TypeTable) (elem : TypeId) :
    (types.addArray elem).2.isArray (types.addArray elem).1 = true ∧
      (types.addArray elem).2.elemType (types.addArray elem).1 = elem := by
  have info : (types.addArray elem).2.info (types.addArray elem).1 = _ := info_add_new types _
  simp [isArray, kind, elemType, info]

theorem IsData.addArray (isData : types.IsData a) :
    (types.addArray a).2.IsData (types.addArray a).1 := by
  obtain ⟨isArray, elem⟩ := isArray_addArray types a
  refine .array isArray ?_
  rw [elem]
  exact (keeps_add _).isData isData

private theorem keeps_setFields (fields : List EntityId) :
    types.Keeps (types.setFields a fields) := by
  intro b _
  simp only [kind, elemType, info, setFields, Array.getD_eq_getD_getElem?, Array.getElem?_modify]
  split
  · cases types.infos[b.index]? <;> simp
  · simp

end TypeTable

/-- Whether the type of a declaration is one that it can have. -/
def Entity.Sound (types : TypeTable) (e : Entity) : Prop :=
  match e.kind with
  | .type | .var => types.IsData e.type
  | .con => e.type = .int ∨ e.type = .char
  | .method => e.type = .none ∨ types.IsData e.type
  | .program => True

theorem Entity.Sound.keeps {types types' : TypeTable} {e : Entity} (sound : e.Sound types)
    (keeps : types.Keeps types') : e.Sound types' := by
  unfold Sound at sound ⊢
  cases kind : e.kind with
  | type | var =>
    rw [kind] at sound
    exact keeps.isData sound
  | con =>
    rw [kind] at sound
    exact sound
  | method =>
    rw [kind] at sound
    exact sound.imp_right keeps.isData
  | program => trivial

namespace SymbolTable

variable {t u : SymbolTable} {id other : EntityId} {kind : EntityKind} {name : String} {type : TypeId}
  {limit : Nat}

theorem Persists.keeps (persists : t.Persists u) : t.types.Keeps u.types := by
  intro a isReference
  have same := persists.info a (contains_of_isReference isReference)
  simp only [kind, elemType, same, and_self]

/-- Whether an entity is a variable, parameter or field of the program. -/
structure IsVar (t : SymbolTable) (id : EntityId) : Prop where
  declared : initial.entities.size ≤ id.index
  inside : t.contains id = true
  kind : (t.entity id).kind = .var

theorem IsVar.persists (isVar : t.IsVar id) (persists : t.Persists u) : u.IsVar id :=
  ⟨isVar.declared, persists.contains isVar.inside,
    by rw [persists.entity id isVar.inside]; exact isVar.kind⟩

theorem Based.isVar_next (based : t.Based) (name : String) (type : TypeId) :
    (t.enter .var name type).IsVar t.next :=
  ⟨based.size, contains_enter.mpr (.inr rfl), by rw [entity_enter_next, kind_newEntity]⟩

/-! ## Tables with sound types -/

/-- Whether all declarations of the program have types that they can have, and the fields of each
class are numbered. -/
structure WellTyped (limit : Nat) (t : SymbolTable) : Prop where
  based : t.Based
  sound : ∀ id, initial.entities.size ≤ id.index → t.contains id = true →
    (t.entity id).Sound t.types
  field : ∀ a (i : Nat) id, (t.types.fields a)[i]? = some id → t.IsVar id ∧ (t.entity id).adr = i
  fieldCount : ∀ a, (t.types.fields a).length ≤ limit

namespace WellTyped

/-- What types do to a table depends on their sorts and fields. -/
theorem retype (wellTyped : t.WellTyped limit) {types : TypeTable} (keeps : t.types.Keeps types)
    (fields : ∀ a, types.fields a = t.types.fields a) (based : Based { t with types }) :
    WellTyped limit { t with types } where
  based := based
  sound id declared inside := (wellTyped.sound id declared inside).keeps keeps
  field a i id found := by
    rw [fields] at found
    obtain ⟨isVar, adr⟩ := wellTyped.field a i id found
    exact ⟨⟨isVar.declared, isVar.inside, isVar.kind⟩, adr⟩
  fieldCount a := by
    rw [fields]
    exact wellTyped.fieldCount a

theorem array (wellTyped : t.WellTyped limit) (elem : TypeId) :
    (t.addArray elem).2.WellTyped limit :=
  wellTyped.retype (keeps_add _) (fields_add rfl) (wellTyped.based.addType _)

theorem scopes (wellTyped : t.WellTyped limit) (scopes : List Scope) :
    WellTyped limit { t with scopes } where
  based := wellTyped.based.scopes scopes
  sound := wellTyped.sound
  field a i id found := by
    obtain ⟨isVar, adr⟩ := wellTyped.field a i id found
    exact ⟨⟨isVar.declared, isVar.inside, isVar.kind⟩, adr⟩
  fieldCount := wellTyped.fieldCount

section

variable (wellTyped : t.WellTyped limit)

include wellTyped

theorem enter (sound : (t.newEntity kind name type).Sound t.types) :
    (t.enter kind name type).WellTyped limit where
  based := wellTyped.based.enter
  sound id declared inside := by
    rcases contains_enter.mp inside with inside | rfl
    · rw [entity_enter inside]
      exact wellTyped.sound id declared inside
    · rw [entity_enter_next]
      exact sound
  field a i id found := by
    obtain ⟨isVar, adr⟩ := wellTyped.field a i id found
    rw [entity_enter isVar.inside]
    exact ⟨isVar.persists (Persists.refl t).enter, adr⟩
  fieldCount := wellTyped.fieldCount

theorem modify {f : Entity → Entity} (later : initial.entities.size ≤ id.index)
    (sound : (t.entity id).Sound t.types → (f (t.entity id)).Sound t.types)
    (keeps : (t.entity id).kind = .var → (f (t.entity id)).kind = .var ∧
      (f (t.entity id)).adr = (t.entity id).adr) : (t.modify id f).WellTyped limit where
  based := wellTyped.based.modify f later
  sound other declared inside := by
    rw [contains_modify] at inside
    have old := wellTyped.sound other declared inside
    by_cases same : other = id
    · subst same
      rw [entity_modify f inside]
      exact sound old
    · rw [entity_modify_ne f same]
      exact old
  field a i other found := by
    obtain ⟨isVar, adr⟩ := wellTyped.field a i other found
    have inside : (t.modify id f).contains other = true := by rw [contains_modify]; exact isVar.inside
    by_cases same : other = id
    · subst same
      obtain ⟨kind, adr'⟩ := keeps isVar.kind
      have changed := entity_modify f isVar.inside
      exact ⟨⟨isVar.declared, inside, by rw [changed, kind]⟩, by rw [changed, adr', adr]⟩
    · have unchanged := entity_modify_ne (t := t) f same
      exact ⟨⟨isVar.declared, inside, by rw [unchanged, isVar.kind]⟩, by rw [unchanged, adr]⟩
  fieldCount := wellTyped.fieldCount

/-- A class gets its fields. -/
theorem setFields {fields : List EntityId} (inside : t.types.contains type = true)
    (later : initial.types.size ≤ type.index)
    (vars : ∀ (i : Nat) id, fields[i]? = some id → t.IsVar id ∧ (t.entity id).adr = i)
    (count : fields.length ≤ limit) : (t.setFields type fields).WellTyped limit where
  based := wellTyped.based.setFields fields later
  sound id declared inside := (wellTyped.sound id declared inside).keeps (keeps_setFields _)
  field a i id found := by
    have found : (if a = type then fields else t.types.fields a)[i]? = some id := by
      rw [← fields_setFields fields inside]
      exact found
    obtain ⟨isVar, adr⟩ : t.IsVar id ∧ (t.entity id).adr = i := by
      split at found
      · exact vars i id found
      · exact wellTyped.field a i id found
    exact ⟨⟨isVar.declared, isVar.inside, isVar.kind⟩, adr⟩
  fieldCount a := by
    change ((t.types.setFields type fields).fields a).length ≤ limit
    rw [fields_setFields fields inside]
    split
    · exact count
    · exact wellTyped.fieldCount a

theorem isData_var (isVar : t.IsVar id) : t.types.IsData (t.entity id).type := by
  have sound := wellTyped.sound id isVar.declared isVar.inside
  simpa [Entity.Sound, isVar.kind] using sound

theorem isData_early (early : id.index < initial.entities.size)
    (kind : (t.entity id).kind = .type ∨ (t.entity id).kind = .method) :
    t.types.IsData (t.entity id).type := by
  rw [wellTyped.based.entity id (decide_eq_true early)] at kind ⊢
  have all : ∀ i < initial.entities.size,
      (initial.entity ⟨i⟩).kind = .type ∨ (initial.entity ⟨i⟩).kind = .method →
      (initial.entity ⟨i⟩).type = .int ∨ (initial.entity ⟨i⟩).type = .char := by decide
  rcases all id.index early kind with isInt | isChar
  · exact isInt ▸ .int
  · exact isChar ▸ .char

theorem isData_type (isType : (t.entity id).kind = .type) : t.types.IsData (t.entity id).type := by
  have inside : t.contains id = true := contains_of_kind (by simp [isType])
  rcases Nat.lt_or_ge id.index initial.entities.size with early | late
  · exact wellTyped.isData_early early (.inl isType)
  · have sound := wellTyped.sound id late inside
    simpa [Entity.Sound, isType] using sound

end

end WellTyped

theorem fields_initial (a : TypeId) : initial.types.fields a = [] := by
  cases fields : initial.types.fields a with
  | nil => rfl
  | cons field rest =>
    have inside := contains_of_mem_fields (fields ▸ List.mem_cons_self)
    have all : ∀ i < initial.types.size, initial.types.fields ⟨i⟩ = [] := by decide
    rw [← fields]
    exact all a.index (of_decide_eq_true inside)

theorem initial_wellTyped (limit : Nat) : initial.WellTyped limit where
  based := .refl _
  sound id declared inside := by
    have early : id.index < initial.entities.size := of_decide_eq_true inside
    omega
  field a i id found := by simp [fields_initial] at found
  fieldCount a := by simp [fields_initial]

/-! ## What a scope declares -/

theorem declared_enter (inScope : t.scopes ≠ []) :
    (t.enter kind name type).declared = t.declared ++ [t.next] := by
  cases scopes : t.scopes with
  | nil => exact absurd scopes inScope
  | cons s outer => simp [declared, SymbolTable.enter, scopes, Scope.declarations, Scope.insert]

/-- Whether everything that the current scope declares is a variable. -/
structure OnlyVars (t : SymbolTable) : Prop where
  based : t.Based
  inScope : t.scopes ≠ []
  isVar : ∀ id ∈ t.declared, t.IsVar id

theorem hereditary_onlyVars : Hereditary OnlyVars where
  array _ _ vars :=
    ⟨vars.based.addType _, vars.inScope, fun id member =>
      (vars.isVar id member).persists ((Persists.refl _).addType _)⟩
  variable_ t name type _ vars := by
    refine ⟨vars.based.enter, by simpa [SymbolTable.enter] using vars.inScope, fun id member => ?_⟩
    rw [declared_enter vars.inScope, List.mem_append, List.mem_singleton] at member
    rcases member with member | rfl
    · exact (vars.isVar id member).persists (Persists.refl t).enter
    · exact vars.based.isVar_next name type

theorem onlyVars_openScope (based : t.Based) : t.openScope.OnlyVars :=
  ⟨based.scopes _, by simp [openScope], by simp [declared, openScope, Scope.declarations]⟩

theorem OnlyVars.modify (vars : t.OnlyVars) {f : Entity → Entity}
    (later : initial.entities.size ≤ id.index) (keeps : ∀ e, (f e).kind = e.kind) :
    (t.modify id f).OnlyVars := by
  refine ⟨vars.based.modify f later, vars.inScope, fun other member => ?_⟩
  obtain ⟨declared, inside, kind⟩ := vars.isVar other member
  exact ⟨declared, by rw [contains_modify]; exact inside, (modify_keeps keeps id other).trans kind⟩

theorem OnlyVars.slots (vars : t.OnlyVars) :
    ∃ s outer, t.scopes = s :: outer ∧ s.slots t = t.declared := by
  cases scopes : t.scopes with
  | nil => exact absurd scopes vars.inScope
  | cons s outer =>
    have declared : t.declared = s.declarations := by simp [SymbolTable.declared, scopes]
    refine ⟨s, outer, rfl, declared ▸ List.filter_eq_self.mpr fun id member => ?_⟩
    simp [(vars.isVar id (declared ▸ member)).kind]

/-- Variables of the current scope stand at their slots. -/
theorem OnlyVars.getElem (vars : t.OnlyVars) (orderly : t.Orderly) (i : Nat) (id : EntityId)
    (found : t.declared[i]? = some id) : t.IsVar id ∧ (t.entity id).adr = i := by
  obtain ⟨s, outer, scopes, slots⟩ := vars.slots
  rw [← slots] at found
  exact ⟨vars.isVar id (slots ▸ List.mem_of_getElem? found),
    ((orderly s outer (scopes ▸ List.suffix_rfl)).slot i id found).1⟩

theorem OnlyVars.length (vars : t.OnlyVars) (orderly : t.Orderly) :
    t.declared.length = t.varCount := by
  obtain ⟨s, outer, scopes, slots⟩ := vars.slots
  have count := (orderly s outer (scopes ▸ List.suffix_rfl)).count
  rw [← slots, ← count]
  simp [varCount, scopes]

end SymbolTable

/-! ## Declarations -/

namespace Syntax

open SymbolTable

variable {t t' : SymbolTable} {limits : Limits} {type : TypeId} {limit : Nat}

theorem TypeName.Resolves.wellTyped {n : TypeName} (resolves : n.Resolves t type t')
    (wellTyped : t.WellTyped limit) : t'.WellTyped limit ∧ t'.types.IsData type := by
  cases resolves with
  | plain found isType => exact ⟨wellTyped, wellTyped.isData_type isType⟩
  | array found isType => exact ⟨wellTyped.array _, (wellTyped.isData_type isType).addArray⟩

theorem WellTyped.enterVar (wellTyped : t.WellTyped limit) (isData : t.types.IsData type)
    (name : String) : (t.enter .var name type).WellTyped limit :=
  wellTyped.enter (by simpa [newEntity, Entity.Sound] using isData)

theorem DeclareNames.wellTyped {names : List String} (declares : DeclareNames type t names t')
    (isData : t.types.IsData type) (wellTyped : t.WellTyped limit) : t'.WellTyped limit := by
  induction declares with
  | nil => exact wellTyped
  | cons fresh _ ih => exact ih isData (WellTyped.enterVar wellTyped isData _)

theorem VarDecl.DeclareAll.wellTyped {ds : List VarDecl} (declares : VarDecl.DeclareAll t ds t')
    (wellTyped : t.WellTyped limit) : t'.WellTyped limit := by
  induction declares with
  | nil => exact wellTyped
  | cons resolved names _ ih =>
    obtain ⟨resolvedTyped, isData⟩ := resolved.wellTyped wellTyped
    exact ih (names.wellTyped isData resolvedTyped)

theorem Parameter.DeclareAll.wellTyped {ps : List Parameter} {last : EntityId}
    (declares : Parameter.DeclareAll t ps last t') (wellTyped : t.WellTyped limit) :
    t'.WellTyped limit ∧ t'.IsVar last := by
  induction declares with
  | one resolved fresh =>
    obtain ⟨resolvedTyped, isData⟩ := resolved.wellTyped wellTyped
    exact ⟨WellTyped.enterVar resolvedTyped isData _, resolvedTyped.based.isVar_next _ _⟩
  | cons resolved fresh _ ih =>
    obtain ⟨resolvedTyped, isData⟩ := resolved.wellTyped wellTyped
    exact ih (WellTyped.enterVar resolvedTyped isData _)

theorem ResultType.wellTyped {n : Option TypeName} (result : ResultType t n type t')
    (wellTyped : t.WellTyped limit) :
    t'.WellTyped limit ∧ (type = .none ∨ t'.types.IsData type) := by
  cases result with
  | void => exact ⟨wellTyped, .inl rfl⟩
  | type resolved =>
    obtain ⟨resolvedTyped, isData⟩ := resolved.wellTyped wellTyped
    exact ⟨resolvedTyped, .inr isData⟩

/-- The fields of a class are the variables that its scope declares. -/
theorem Decl.Declares.wellTyped {d : Decl} (declares : d.Declares limits t t')
    (wellTyped : t.WellTyped limits.fields) (orderly : t.Orderly) : t'.WellTyped limits.fields := by
  cases declares with
  | @const _ name literal t1 resolved fresh =>
    obtain ⟨resolvedTyped, _⟩ := resolved.wellTyped wellTyped
    have literalType : literal.type = .int ∨ literal.type = .char := by
      cases literal with
      | number => exact .inl rfl
      | character => exact .inr rfl
    have entered : (t1.enter .con name literal.type).WellTyped limits.fields :=
      resolvedTyped.enter (by simpa [newEntity, Entity.Sound] using literalType)
    exact entered.modify resolvedTyped.based.size (fun sound => sound) fun isVar => ⟨isVar, rfl⟩
  | vars resolved names =>
    obtain ⟨resolvedTyped, isData⟩ := resolved.wellTyped wellTyped
    exact names.wellTyped isData resolvedTyped
  | @classDecl name fields u fresh declared capacity =>
    have added : t.addClass.2.WellTyped limits.fields :=
      wellTyped.retype (keeps_add _) (fields_add rfl)
        (wellTyped.based.addType _)
    have isClass : t.addClass.2.types.isClass t.addClass.1 = true :=
      beq_iff_eq.mpr (congrArg TypeInfo.kind (info_add_new t.types _))
    have notNull : t.addClass.1 ≠ .null := by
      intro same
      have size : 5 ≤ t.types.size := wellTyped.based.typeCount
      have index : t.types.size = 3 := congrArg TypeId.index same
      omega
    have entered : (t.addClass.2.enter .type name t.addClass.1).openScope.WellTyped limits.fields :=
      (added.enter (by simpa [newEntity, Entity.Sound] using .object isClass notNull)).scopes _
    have inClass := declared.wellTyped entered
    have entered' : (t.addClass.2.enter .type name t.addClass.1).Orderly :=
      (orderly.types _).enter fresh
    have orderly' : u.Orderly := declared.preserves hereditary_orderly entered'.openScope
    have vars : u.OnlyVars := declared.preserves hereditary_onlyVars
      (onlyVars_openScope (added.based.enter))
    have persists := declared.preserves (hereditary_persists _) (.refl _)
    have inside : u.types.contains t.addClass.1 = true :=
      persists.contains_type (contains_of_isReference
        (by simpa [isReference] using .inr isClass))
    refine (inClass.scopes _).setFields inside wellTyped.based.typeCount (fun i id found => ?_)
      (vars.length orderly' ▸ capacity)
    obtain ⟨isVar, adr⟩ := vars.getElem orderly' i id found
    exact ⟨isVar.persists ((Persists.refl u).scopes _), adr⟩

/-- The last parameter becomes an array if it collects arguments. -/
theorem WellTyped.collectRest (wellTyped : t.WellTyped limit) {method last : EntityId}
    (isVar : t.IsVar last) (later : initial.entities.size ≤ method.index) :
    (collectRest t method last).WellTyped limit := by
  have isData : (t.addArray (t.entity last).type).2.types.IsData
      (t.types.addArray (t.entity last).type).1 := (wellTyped.isData_var isVar).addArray
  refine ((wellTyped.array _).modify isVar.declared ?_ ?_).modify later ?_ ?_
  · intro _
    simpa [Entity.Sound, isVar.kind] using isData
  · exact fun isVar => ⟨isVar, rfl⟩
  · exact fun sound => sound
  · exact fun isVar => ⟨isVar, rfl⟩

theorem Parameters.Declare.wellTyped {method : EntityId} {ps : Option Parameters}
    (declares : Parameters.Declare method t ps t') (wellTyped : t.WellTyped limit)
    (later : initial.entities.size ≤ method.index) : t'.WellTyped limit := by
  cases declares with
  | none => exact wellTyped
  | some declared =>
    obtain ⟨declaredTyped, isVar⟩ := declared.wellTyped wellTyped
    refine .modify ?_ later (fun sound => sound) fun isVar => ⟨isVar, rfl⟩
    split
    · exact WellTyped.collectRest declaredTyped isVar later
    · exact declaredTyped

theorem WellTyped.enterMethod (wellTyped : t.WellTyped limit)
    (isResult : type = .none ∨ t.types.IsData type) (name : String) (base : Nat) :
    (t.enterMethod name type base).WellTyped limit := by
  have entered : (t.enter .method name type).WellTyped limit :=
    wellTyped.enter (by simpa [newEntity, Entity.Sound] using isResult)
  refine entered.modify wellTyped.based.size (fun sound => sound) fun isVar => ?_
  rw [entity_enter_next, kind_newEntity] at isVar
  cases isVar

theorem Method.Opens.wellTyped {base : Nat} {m : Method} (opens : m.Opens t base t')
    (wellTyped : t.WellTyped limit) : t'.WellTyped limit := by
  obtain @⟨type, t1, t2, _, result, fresh, parameters, locals⟩ := opens
  obtain ⟨resultTyped, isResult⟩ := result.wellTyped wellTyped
  have later : initial.entities.size ≤ t1.next.index := resultTyped.based.size
  have head := (WellTyped.enterMethod resultTyped isResult m.name base).scopes
  exact locals.wellTyped ((parameters.wellTyped (head _) later).modify later (fun sound => sound)
    fun isVar => ⟨isVar, rfl⟩)

end Syntax

end MicroJava

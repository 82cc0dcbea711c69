import MicroJava.Proofs.Storage.Trace

/-! # Declarations and slots

The variables of the open scopes, by slot, are those that a program declares there, in the order of
their declaration. So a name in a method body means the variable at its place among the
declarations, and the fields of a class are those of its declaration.
-/

namespace MicroJava

open Syntax Operand SymbolTable TypeTable List Scope

variable {fields : List VarDecl} {segments : List (List Item)}

/-! ## Variables of scopes -/

/-- The names of the variables of a scope, by slot. -/
def Scope.varNames (t : SymbolTable) (s : Scope) : List String :=
  (s.slots t).map fun id => (t.entity id).name

namespace Scope

variable {t : SymbolTable} {s : Scope} {level : Nat} {id : EntityId} {name : String}

/-- A variable has the slot of its name. -/
theorem Orderly.slot_of_var (orderly : s.Orderly t level) (member : id ∈ s.entries)
    (isVar : (t.entity id).kind = .var) :
    ∃ slot : Nat, (s.varNames t)[slot]? = some (t.entity id).name ∧ (t.entity id).adr = slot ∧
      (t.entity id).level = level := by
  obtain ⟨slot, found, place⟩ := orderly.exists_slot member isVar
  exact ⟨slot, by simp [varNames, found], place⟩

/-- A name that means something else is none of the variables. -/
theorem Orderly.var_of_mem (orderly : s.Orderly t level) (found : t.search s.entries name = some id)
    (isVariable : name ∈ s.varNames t) : (t.entity id).kind = .var := by
  obtain ⟨other, isSlot, rfl⟩ := mem_map.mp isVariable
  obtain ⟨slot, at_⟩ := mem_iff_getElem?.mp isSlot
  obtain ⟨member, isVar⟩ := mem_entries_of_slots at_
  rw [orderly.search member, Option.some.injEq] at found
  exact found ▸ isVar

private theorem notMem_varNames (absent : t.search s.entries name = none) :
    name ∉ s.varNames t := by
  intro isVariable
  obtain ⟨id, isSlot, rfl⟩ := mem_map.mp isVariable
  have member : id ∈ s.entries := mem_reverse.mp (mem_of_mem_filter isSlot)
  have other := find?_eq_none.mp absent id member
  simp at other

end Scope

namespace SymbolTable

variable {t u w : SymbolTable} {id : EntityId} {kind : EntityKind} {name : String} {type : TypeId}
  {names more : List String}

/-- The names of the variables of all open scopes, by slot, the innermost scope first. -/
def varNames (t : SymbolTable) : List (List String) := t.scopes.map (Scope.varNames t)

private theorem varNames_congr {s : Scope} (same : ∀ id ∈ s.entries,
    (u.entity id).kind = (t.entity id).kind ∧ (u.entity id).name = (t.entity id).name) :
    s.varNames u = s.varNames t := by
  have slots : s.slots u = s.slots t := slots_congr fun id member => (same id member).1
  unfold Scope.varNames
  rw [slots]
  refine map_congr_left fun id member => ?_
  exact (same id (mem_reverse.mp (mem_of_mem_filter member))).2

private theorem varNames_openScope : t.openScope.varNames = [] :: t.varNames := rfl

private theorem varNames_leave : t.leave.varNames = t.varNames.tail := map_tail

/-- Whether declarations add variables behind those of the current scope. -/
def Gains (t : SymbolTable) (names : List String) (u : SymbolTable) : Prop :=
  u.Orderly ∧ u.varNames = t.varNames.modifyHead (· ++ names)

theorem Gains.refl (orderly : t.Orderly) : t.Gains [] t :=
  ⟨orderly, by cases t.varNames <;> simp⟩

theorem Gains.trans (first : t.Gains names u) (second : u.Gains more w) :
    t.Gains (names ++ more) w := by
  refine ⟨second.1, ?_⟩
  rw [second.2, first.2]
  cases t.varNames <;> simp

theorem Gains.varNames_eq (gains : t.Gains [] u) : u.varNames = t.varNames := by
  rw [gains.2]
  cases t.varNames <;> simp

theorem Gains.types (gains : t.Gains names u) (types : TypeTable) :
    t.Gains names { u with types } := ⟨gains.1.types types, gains.2⟩

theorem Gains.modify {f : Entity → Entity} (gains : t.Gains names u)
    (keeps : KeepsSlot (u.entity id) (f (u.entity id))) : t.Gains names (u.modify id f) := by
  refine ⟨gains.1.modify keeps, Eq.trans ?_ gains.2⟩
  refine map_congr_left fun s open_ => varNames_congr fun other member => ?_
  by_cases same : other = id
  · subst same
    rw [entity_modify f (gains.1.inside open_ member)]
    exact ⟨keeps.kind, keeps.name⟩
  · rw [entity_modify_ne f same]
    exact ⟨rfl, rfl⟩

theorem Orderly.gains (orderly : t.Orderly) (fresh : t.Fresh name) (kind : EntityKind)
    (type : TypeId) : t.Gains (if kind = .var then [name] else []) (t.enter kind name type) := by
  refine ⟨orderly.enter fresh, ?_⟩
  have old (s) (open_ : s ∈ t.scopes) :
      s.varNames (t.enter kind name type) = s.varNames t := by
    refine varNames_congr fun id member => ?_
    rw [entity_enter (orderly.inside open_ member)]
    exact ⟨rfl, rfl⟩
  unfold varNames
  cases scopes : t.scopes with
  | nil => simp [SymbolTable.enter, scopes]
  | cons s outer =>
    rw [scopes] at old
    have inside : ∀ id ∈ s.entries, t.contains id = true :=
      fun id member => orderly.inside (scopes ▸ mem_cons_self) member
    have first : (s.insert t.next kind).varNames (t.enter kind name type) =
        s.varNames t ++ if kind = .var then [name] else [] := by
      have slots : s.slots (t.enter kind name type) = s.slots t :=
        slots_congr fun id member => by rw [entity_enter (inside id member)]
      rw [← old s mem_cons_self, Scope.varNames, Scope.varNames, slots_enter inside,
        slots, map_append]
      split <;> simp [name_newEntity]
    simp only [SymbolTable.enter, scopes, modifyHead_cons, map_cons]
    refine congrArg₂ cons first (map_congr_left fun s member => ?_)
    exact old s (mem_cons_of_mem _ member)

theorem collects_gains : Collects fun t names u => t.Orderly → t.Gains names u where
  refl _ := .refl
  trans first second orderly := (first orderly).trans (second (first orderly).1)
  array _ first orderly := (first orderly).types _
  variable_ _ _ type fresh orderly := orderly.gains fresh .var type

theorem Orderly.varCount (orderly : t.Orderly) {outer : List (List String)}
    (declared : t.varNames = names :: outer) : t.varCount = names.length ∧ names.Nodup := by
  unfold varNames at declared
  cases scopes : t.scopes with
  | nil => simp [scopes] at declared
  | cons s rest =>
    rw [scopes] at declared
    obtain rfl := (cons.inj declared).1
    have current := orderly s rest (scopes ▸ suffix_rfl)
    have count : t.varCount = (s.slots t).length := by
      rw [← current.count]
      simp [varCount, scopes]
    exact ⟨count.trans (length_map _).symm, current.distinct_slots⟩

theorem Widens.varNames (widens : t.Widens u) : u.varNames = t.varNames := by
  unfold SymbolTable.varNames
  rw [widens.scopes]
  exact map_congr_left fun s _ => varNames_congr fun id _ => by simp [widens.entity]

end SymbolTable

namespace Syntax

open SymbolTable

variable {t t' : SymbolTable} {limits : Limits} {type : TypeId} {base : Nat} {m : Method}

theorem Decl.Declares.gains {d : Decl} (declares : d.Declares limits t t') (orderly : t.Orderly) :
    t.Gains d.varNames t' := by
  cases declares with
  | const resolved fresh =>
    have typed := resolved.collects collects_gains orderly
    exact (typed.trans (typed.1.gains fresh .con _)).modify ⟨rfl, rfl, fun _ => ⟨rfl, rfl⟩⟩
  | vars resolved names =>
    have typed := resolved.collects collects_gains orderly
    exact typed.trans (names.collects collects_gains typed.1)
  | @classDecl name fields u fresh declared _ =>
    have entered : t.Gains [] (t.addClass.2.enter .type name t.addClass.1) :=
      Orderly.gains (t := t.addClass.2) (orderly.types _) fresh .type _
    obtain ⟨orderly, varNames⟩ := declared.collects collects_gains entered.1.openScope
    refine ⟨orderly.leave.types _, ?_⟩
    -- The fields are gone with the scope of the class.
    have outer : u.leave.varNames = (t.addClass.2.enter .type name t.addClass.1).varNames := by
      rw [varNames_leave, varNames, varNames_openScope]
      rfl
    exact outer.trans entered.2

/-- The variables in the statements of a method. -/
theorem Method.Opens.varNames (opens : m.Opens t base t') (orderly : t.Orderly) :
    t'.Orderly ∧ t'.varNames = m.names :: t.varNames := by
  obtain @⟨type, t1, t2, _, result, fresh, parameters, locals⟩ := opens
  have typed := result.collects collects_gains orderly
  have head : t.Gains [] (t1.enterMethod m.name type base) := by
    refine (typed.trans (typed.1.gains fresh .method type)).modify ⟨rfl, rfl, fun isVar => ?_⟩
    rw [entity_enter_next, kind_newEntity] at isVar
    cases isVar
  have declared : (t1.enterMethod m.name type base).openScope.Gains
      (m.parameters.elim [] Parameters.names)
      (t2.modify t1.next fun e => { e with locals := t2.declared }) :=
    (parameters.collects collects_gains (fun {_ u id _} _ keeps first orderly => by
      obtain ⟨kind, name, slot⟩ := keeps (u.entity id)
      exact (first orderly).modify ⟨kind, name, fun _ => slot⟩) head.1.openScope).modify
        ⟨rfl, rfl, fun _ => ⟨rfl, rfl⟩⟩
  obtain ⟨orderly', varNames'⟩ :=
    declared.trans (locals.collects collects_gains declared.1)
  refine ⟨orderly', ?_⟩
  rw [varNames', varNames_openScope, head.varNames_eq]
  rfl

theorem Parameters.Declare.parameterCount {method : EntityId} {ps : Option Parameters}
    (declares : Parameters.Declare method t ps t') (inside : t'.contains method = true)
    (uncounted : (t.entity method).parameterCount = 0) :
    (t'.entity method).parameterCount = (ps.elim [] Parameters.names).length := by
  cases declares with
  | none => exact uncounted
  | some declared =>
    rw [contains_modify] at inside
    rw [entity_modify _ inside]
    exact (length_map _).symm

/-- A method counts the parameters in its text. -/
theorem Method.Opens.parameterCount (opens : m.Opens t base t') :
    (t'.entity t.next).parameterCount = m.parameterCount := by
  obtain @⟨type, t1, t2, _, result, fresh, parameters, locals⟩ := opens
  rw [← result.same.1]
  have uncounted :
      ((t1.enterMethod m.name type base).openScope.entity t1.next).parameterCount = 0 := by
    rw [entity_openScope, enterMethod, entity_modify _ (contains_enter.mpr (.inr rfl)),
      entity_enter_next]
    rfl
  have begins : Begins m.name base t1.next t2 := parameters.preserves (robust_begins ..)
    ((robust_begins ..).scopes _ _ (begins_enterMethod ..))
  have inside : t2.contains t1.next = true := contains_of_method begins.kind
  have persists := locals.preserves (hereditary_persists _) (.refl _)
  rw [persists.entity _ (by rwa [contains_modify]), entity_modify _ inside]
  exact parameters.parameterCount inside uncounted

/-- A method takes its variables away with its scope. -/
theorem Method.Compiles.varNames {items : List Item} (compiles : m.Compiles limits t base items t')
    (orderly : t.Orderly) : t.Gains [] t' := by
  obtain ⟨t1, t2, _, opens, sequence, _, _, _, _, rfl⟩ := compiles.body
  obtain ⟨orderly1, varNames1⟩ := opens.varNames orderly
  have widens := (sequence.contained (Stmt.Compiles.contained _)).widens
  have orderly2 : t2.leave.Orderly :=
    (widens.preserves hereditary_orderly.array orderly1).leave
  refine .modify ⟨orderly2, ?_⟩ ⟨rfl, rfl, fun _ => ⟨rfl, rfl⟩⟩
  rw [varNames_leave, widens.varNames, varNames1, ← (Gains.refl orderly).2]
  rfl

theorem Method.CompileAll.varNames {ms : List Method}
    (compiles : Method.CompileAll limits t base ms segments t') (orderly : t.Orderly) :
    t.Gains [] t' := by
  induction compiles with
  | nil => exact .refl orderly
  | cons first _ ih =>
    have first := first.varNames orderly
    exact first.trans (ih first.1)

theorem Program.start_varNames {p : Program} (fresh : initial.Fresh p.name) :
    p.start.varNames = [[], []] := by
  have initial : initial.varNames = [[]] := by decide
  have entered := initial_orderly.gains fresh .program .none
  change [] :: (SymbolTable.initial.enter .program p.name .none).varNames = _
  rw [entered.2, initial]
  rfl

/-- The variables in the statements of a method of a program. -/
theorem Program.varNames_body {p : Program} {before : List Method} {globals t1 u : SymbolTable}
    {front : List (List Item)} (fresh : initial.Fresh p.name)
    (decls : Decl.DeclareAll limits p.start p.decls globals)
    (methods : Method.CompileAll limits globals 0 before front t1) (opens : m.Opens t1 base u) :
    u.Orderly ∧ u.varNames = [m.names, p.varNames, []] := by
  have declared := decls.collects collects_gains (·.gains) (Program.start_orderly fresh)
  have earlier := declared.trans (methods.varNames declared.1)
  obtain ⟨orderly, varNames⟩ := opens.varNames earlier.1
  refine ⟨orderly, ?_⟩
  rw [varNames, earlier.2, Program.start_varNames fresh]
  simp [Program.varNames]

end Syntax

/-! ## Names in method bodies -/

/-- What is no variable is at no location. -/
theorem Operand.at_none {e : Entity} (id : EntityId) (notVar : e.kind ≠ .var) :
    (ofEntity id e).result.At none := by
  have kind : (ofEntity id e).result.kind = kindOf e := rfl
  have others : kindOf e ≠ .localVar ∧ kindOf e ≠ .staticVar ∧
      kindOf e ≠ .field := by
    unfold kindOf
    cases isKind : e.kind with
    | var => exact absurd isKind notVar
    | _ => simp
  exact .other others.1 others.2.1 others.2.2

/-- Names are where they are declared, if the variables of the open scopes are as declared and all
that the innermost scope declares are variables. -/
theorem Surroundings.known {v : Surroundings} {limit : Nat} (wellTyped : v.table.WellTyped limit)
    (orderly : v.table.Orderly) (varNames : v.table.varNames = [v.locals, v.globals, []])
    (onlyVars : ∀ s outer, v.table.scopes = s :: outer → ∀ id ∈ s.entries,
      (v.table.entity id).kind = .var) : v.Known where
  field a i id found := (wellTyped.field a i id found).2
  name name id found := by
    obtain ⟨inner, program, outermost, scopes⟩ : ∃ inner program outermost,
        v.table.scopes = [inner, program, outermost] := by
      have length := congrArg length varNames
      rw [SymbolTable.varNames, length_map] at length
      exact length_eq_three.mp length
    obtain ⟨locals, globals, none⟩ : inner.varNames v.table = v.locals ∧
        program.varNames v.table = v.globals ∧ outermost.varNames v.table = [] := by
      simpa [SymbolTable.varNames, scopes] using varNames
    have inInner := orderly inner [program, outermost] (scopes ▸ suffix_rfl)
    have inProgram := orderly program [outermost] (scopes ▸ suffix_cons _ _)
    have inOutermost := orderly outermost []
      (scopes ▸ (suffix_cons _ _).trans (suffix_cons _ _))
    simp only [lookup?, scopes, findSome?_cons, findSome?_nil] at found
    cases inner? : v.table.search inner.entries name with
    | some other =>
      obtain rfl : other = id := by simpa [inner?] using found
      obtain ⟨member, rfl⟩ := mem_of_search inner?
      have isVar := onlyVars inner _ scopes other member
      obtain ⟨slot, declared, adr, level⟩ := inInner.slot_of_var member isVar
      refine ⟨_, .localVar (locals ▸ declared), .localVar ?_ adr⟩
      simp [ofEntity, kindOf, isVar, level]
    | none =>
      have notLocal : name ∉ v.locals := locals ▸ notMem_varNames inner?
      cases program? : v.table.search program.entries name with
      | some other =>
        obtain rfl : other = id := by simpa [inner?, program?] using found
        obtain ⟨member, named⟩ := mem_of_search program?
        by_cases isVar : (v.table.entity other).kind = .var
        · obtain ⟨slot, declared, adr, level⟩ := inProgram.slot_of_var member isVar
          rw [named, globals] at declared
          refine ⟨_, .staticVar notLocal declared, .staticVar ?_ adr⟩
          simp [ofEntity, kindOf, isVar, level]
        · have notGlobal : name ∉ v.globals :=
            globals ▸ fun isGlobal => isVar (inProgram.var_of_mem program? isGlobal)
          exact ⟨_, .other notLocal notGlobal, at_none other isVar⟩
      | none =>
        have notGlobal : name ∉ v.globals := globals ▸ notMem_varNames program?
        cases outermost? : v.table.search outermost.entries name with
        | none => simp [inner?, program?, outermost?] at found
        | some other =>
          obtain rfl : other = id := by simpa [inner?, program?, outermost?] using found
          refine ⟨_, .other notLocal notGlobal, at_none other fun isVar => ?_⟩
          obtain ⟨slot, declared, _⟩ :=
            inOutermost.slot_of_var (mem_of_search outermost?).1 isVar
          simp [none] at declared

/-! ## Classes -/

theorem TypeTable.contains_of_isClass {types : TypeTable} {a : TypeId}
    (isClass : types.isClass a = true) : types.contains a = true :=
  contains_of_isReference (by simp [isReference, isClass])

theorem TypeTable.IsData.contains {types : TypeTable} {a : TypeId} (isData : types.IsData a)
    (size : SymbolTable.initial.types.size ≤ types.size) : types.contains a = true := by
  cases isData with
  | int | char => exact decide_eq_true (Nat.lt_of_lt_of_le (by decide) size)
  | object isClass _ => exact contains_of_isClass isClass
  | array isArray _ => exact contains_of_isReference (by simp [isReference, isArray])

theorem TypeTable.isClass_addArray {types : TypeTable} {elem a : TypeId}
    (isClass : (types.addArray elem).2.isClass a = true) : types.isClass a = true := by
  simp only [TypeTable.isClass, kind, info, addArray, add, Array.getD_eq_getD_getElem?,
    Array.getElem?_push] at isClass ⊢
  split at isClass
  · cases isClass
  · exact isClass

theorem TypeTable.isClass_addClass {types : TypeTable} {a : TypeId}
    (isClass : types.addClass.2.isClass a = true) :
    types.isClass a = true ∨ a = types.addClass.1 := by
  simp only [TypeTable.isClass, kind, info, addClass, add, Array.getD_eq_getD_getElem?,
    Array.getElem?_push] at isClass ⊢
  split at isClass
  · next last =>
    right
    cases a
    exact congrArg TypeId.mk last
  · exact .inl isClass

@[simp] theorem TypeTable.isClass_setFields {types : TypeTable} {a b : TypeId}
    (fields : List EntityId) : (types.setFields a fields).isClass b = types.isClass b := by
  simp only [isClass, kind, info, setFields, Array.getD_eq_getD_getElem?, Array.getElem?_modify]
  split
  · cases types.infos[b.index]? <;> rfl
  · rfl

namespace SymbolTable

variable {t u : SymbolTable} {ds : List Decl} {limit : Nat} {name : String} {a : TypeId}

private theorem contains_of_type {id : EntityId} (isType : (t.entity id).kind = .type) :
    t.contains id = true := contains_of_kind (by simp [isType])

/-- Whether all classes of a table and all types with a name are in another table already. -/
structure AddsNoClass (t u : SymbolTable) : Prop where
  isClass : ∀ a, u.types.isClass a = true → t.types.isClass a = true
  isType : ∀ id, (u.entity id).kind = .type → t.contains id = true

theorem AddsNoClass.refl (t : SymbolTable) : t.AddsNoClass t :=
  ⟨fun _ isClass => isClass, fun _ isType => contains_of_type isType⟩

theorem AddsNoClass.enter (adds : t.AddsNoClass u) {kind : EntityKind} {type : TypeId}
    (other : kind ≠ .type) : t.AddsNoClass (u.enter kind name type) where
  isClass := adds.isClass
  isType id isType := by
    rw [entity_enter_of_kind isType other (by simp)] at isType
    exact adds.isType id isType

theorem AddsNoClass.modify (adds : t.AddsNoClass u) {id : EntityId} {f : Entity → Entity}
    (keeps : ∀ e, (f e).kind = e.kind) : t.AddsNoClass (u.modify id f) where
  isClass := adds.isClass
  isType other isType := adds.isType other ((modify_keeps keeps id other).symm.trans isType)

theorem robust_addsNoClass (t : SymbolTable) : Robust t.AddsNoClass where
  array _ _ adds :=
    ⟨fun a isClass => adds.isClass a (isClass_addArray isClass), adds.isType⟩
  variable_ _ _ _ _ adds := adds.enter (by simp)
  modify _ _ _ keeps adds := adds.modify fun e => (keeps e).1
  scopes _ _ adds := ⟨adds.isClass, adds.isType⟩

/-- Whether one class is new in a table, with fields of the given names. -/
structure AddsClass (t : SymbolTable) (name : String) (names : List String) (u : SymbolTable) :
    Prop where
  isNew : u.IsClassOf name t.addClass.1
  fieldNames : u.fieldNames t.addClass.1 = names
  distinct : names.Nodup
  isClass : ∀ a, u.types.isClass a = true → t.types.isClass a = true ∨ a = t.addClass.1
  isType : ∀ id, (u.entity id).kind = .type →
    t.contains id = true ∨ (u.entity id).name = name ∧ (u.entity id).type = t.addClass.1

/-- Whether the classes of a table are those that some declarations declare. -/
structure HasClasses (ds : List Decl) (t : SymbolTable) : Prop where
  each : ∀ name fields, .classDecl name fields ∈ ds →
    ∃ a, t.IsClassOf name a ∧ t.fieldNames a = fields.flatMap VarDecl.names
  only : ∀ name a, t.IsClassOf name a → (t.fieldNames a).Nodup ∧
    ∃ fields, .classDecl name fields ∈ ds ∧ t.fieldNames a = fields.flatMap VarDecl.names
  named : ∀ a, t.types.isClass a = true → a ≠ .null → ∃ name, t.IsClassOf name a
  null : t.fieldNames .null = []

theorem Based.fieldNames_null (based : t.Based) : t.fieldNames .null = [] := by
  have fields : t.types.fields .null = initial.types.fields .null :=
    congrArg TypeInfo.fields (based.info .null (by decide))
  rw [fieldNames, fields, fields_initial, map_nil]

theorem Persists.isClassOf (persists : t.Persists u) (isClass : t.IsClassOf name a) :
    u.IsClassOf name a := by
  obtain ⟨id, isType, named, type, isClass⟩ := isClass
  have same := persists.entity id (contains_of_type isType)
  exact ⟨id, same ▸ isType, same ▸ named, same ▸ type, persists.keeps.isClass isClass⟩

theorem Persists.fieldNames (persists : t.Persists u) (wellTyped : t.WellTyped limit)
    (isClass : t.types.isClass a = true) : u.fieldNames a = t.fieldNames a := by
  have fields : u.types.fields a = t.types.fields a :=
    congrArg TypeInfo.fields (persists.info a (contains_of_isClass isClass))
  rw [SymbolTable.fieldNames, fields]
  refine map_congr_left fun id member => ?_
  obtain ⟨i, found⟩ := mem_iff_getElem?.mp member
  rw [persists.entity id (wellTyped.field a i id found).1.inside]

section

variable (classes : t.HasClasses ds) (wellTyped : t.WellTyped limit) (persists : t.Persists u)

include classes wellTyped persists

theorem HasClasses.each_persists (member : .classDecl name fields ∈ ds) :
    ∃ a, u.IsClassOf name a ∧ u.fieldNames a = fields.flatMap VarDecl.names := by
  obtain ⟨a, isClassOf, names⟩ := classes.each name fields member
  have ⟨_, _, _, _, isClass⟩ := isClassOf
  refine ⟨a, persists.isClassOf isClassOf, ?_⟩
  rw [persists.fieldNames wellTyped isClass, names]

/-- No class is added or changed. -/
theorem HasClasses.grow (adds : t.AddsNoClass u) : u.HasClasses ds where
  each _ _ := classes.each_persists wellTyped persists
  only name a isClass := by
    obtain ⟨id, isType, named, type, isClass⟩ := isClass
    have same := persists.entity id (adds.isType id isType)
    have isClass := adds.isClass a isClass
    rw [persists.fieldNames wellTyped isClass]
    exact classes.only name a ⟨id, same ▸ isType, same ▸ named, same ▸ type, isClass⟩
  named a isClass notNull := by
    obtain ⟨name, isClass⟩ := classes.named a (adds.isClass a isClass) notNull
    exact ⟨name, persists.isClassOf isClass⟩
  null := Based.fieldNames_null (wellTyped.based.trans persists)

/-- One class is added. -/
theorem HasClasses.add (adds : t.AddsClass name (fields.flatMap VarDecl.names) u) :
    u.HasClasses (ds ++ [.classDecl name fields]) where
  each other others member := by
    rcases mem_append.mp member with member | member
    · exact classes.each_persists wellTyped persists member
    · obtain ⟨rfl, rfl⟩ : other = name ∧ others = fields := by simpa using member
      exact ⟨_, adds.isNew, adds.fieldNames⟩
  only other a isClassOf := by
    obtain ⟨id, isType, named, type, isClass⟩ := isClassOf
    rcases adds.isType id isType with inside | ⟨rfl, new⟩
    · have same := persists.entity id inside
      have early := (wellTyped.isData_type (same ▸ isType)).contains wellTyped.based.typeCount
      rw [← same, type] at early
      have old : t.types.isClass a = true := by
        rcases adds.isClass a isClass with old | rfl
        · exact old
        · exact absurd (of_decide_eq_true early) (Nat.lt_irrefl _)
      rw [persists.fieldNames wellTyped old]
      obtain ⟨distinct, others, member, names⟩ :=
        classes.only other a ⟨id, same ▸ isType, same ▸ named, same ▸ type, old⟩
      exact ⟨distinct, others, mem_append_left _ member, names⟩
    · obtain rfl := new.symm.trans type
      rw [← named, adds.fieldNames]
      exact ⟨adds.distinct, fields, by simp, rfl⟩
  named a isClass notNull := by
    rcases adds.isClass a isClass with isClass | rfl
    · obtain ⟨other, isClassOf⟩ := classes.named a isClass notNull
      exact ⟨other, persists.isClassOf isClassOf⟩
    · exact ⟨name, adds.isNew⟩
  null := Based.fieldNames_null (wellTyped.based.trans persists)

end

end SymbolTable

namespace Syntax

open SymbolTable

variable {t t' : SymbolTable} {limits : Limits} {ds : List Decl} {limit : Nat}

/-- Declarations of other things add no class. -/
theorem Decl.Declares.addsNoClass {d : Decl} (declares : d.Declares limits t t')
    (noClass : ∀ name fields, d ≠ .classDecl name fields) : t.AddsNoClass t' := by
  have robust := robust_addsNoClass t
  cases declares with
  | const resolved _ =>
    exact ((resolved.preserves robust.array (.refl t)).enter (by simp)).modify fun _ => rfl
  | vars resolved names =>
    exact names.preserves robust.toHereditary (resolved.preserves robust.array (.refl t))
  | classDecl => exact absurd rfl (noClass _ _)

/-- Everything in a scope of variables is declared in order and once. -/
theorem VarDecl.DeclareAll.names_declared {ds : List VarDecl}
    (declares : VarDecl.DeclareAll t.openScope ds t') (orderly : t.Orderly) (based : t.Based) :
    (t'.declared.map fun id => (t'.entity id).name) = ds.flatMap VarDecl.names ∧
      (t'.declared.map fun id => (t'.entity id).name).Nodup := by
  obtain ⟨orderly', varNames⟩ := declares.collects collects_gains orderly.openScope
  obtain ⟨s, outer, scopes, slots⟩ :=
    (declares.preserves hereditary_onlyVars (onlyVars_openScope based)).slots
  rw [← slots]
  refine ⟨?_, (orderly' s outer (scopes ▸ suffix_rfl)).distinct_slots⟩
  rw [varNames_openScope, SymbolTable.varNames, scopes] at varNames
  exact (cons.inj varNames).1

/-- A class has the fields that it declares. -/
theorem Decl.Declares.addsClass {name : String}
    (declares : (Decl.classDecl name fields).Declares limits t t') (based : t.Based)
    (orderly : t.Orderly) : t.AddsClass name (fields.flatMap VarDecl.names) t' := by
  cases declares with
  | @classDecl _ _ u fresh declared capacity =>
    have entered : (t.addClass.2.enter .type name t.addClass.1).Orderly :=
      (orderly.types _).enter fresh
    obtain ⟨names, distinct⟩ := declared.names_declared entered (based.addType _).enter
    have persists := declared.preserves (hereditary_persists _) (.refl _)
    have adds := declared.preserves (robust_addsNoClass _).toHereditary (.refl _)
    have entity : u.entity t.next = t.addClass.2.newEntity .type name t.addClass.1 :=
      (persists.entity t.next (contains_enter.mpr (.inr rfl))).trans entity_enter_next
    have isClass : u.types.isClass t.addClass.1 = true :=
      persists.keeps.isClass (beq_iff_eq.mpr (congrArg TypeInfo.kind
        (info_add_new t.types _)))
    have own : (u.types.setFields t.addClass.1 u.declared).fields t.addClass.1 = u.declared := by
      rw [fields_setFields _ (contains_of_isClass isClass), if_pos rfl]
    refine ⟨⟨t.next, congrArg Entity.kind entity, congrArg Entity.name entity,
      congrArg Entity.type entity, (isClass_setFields _).trans isClass⟩, ?_,
      names ▸ distinct, fun a isClass => ?_, fun id isType => ?_⟩
    · rw [← names]
      exact congrArg (map fun id => (u.entity id).name) own
    · have isClass : u.types.isClass a = true := (isClass_setFields _).symm.trans isClass
      exact isClass_addClass (adds.isClass a isClass)
    · rcases contains_enter.mp (adds.isType id isType) with inside | rfl
      · exact .inl inside
      · exact .inr ⟨congrArg Entity.name entity, congrArg Entity.type entity⟩

/-- A declaration adds the class that it declares, if any. -/
theorem Decl.Declares.hasClasses {d : Decl} (declares : d.Declares limits t t')
    (classes : t.HasClasses ds) (wellTyped : t.WellTyped limits.fields) (orderly : t.Orderly) :
    t'.HasClasses (ds ++ [d]) := by
  cases d with
  | classDecl name fields =>
    exact classes.add wellTyped declares.persists (declares.addsClass wellTyped.based orderly)
  | _ =>
    have same := classes.grow wellTyped declares.persists (declares.addsNoClass (by simp))
    refine ⟨fun name fields member => same.each name fields (by simpa using member),
      fun name a isClassOf => ?_, same.named, same.null⟩
    obtain ⟨distinct, fields, member, names⟩ := same.only name a isClassOf
    exact ⟨distinct, fields, mem_append_left _ member, names⟩

theorem Decl.DeclareAll.hasClasses {rest : List Decl} (declares : Decl.DeclareAll limits t rest t')
    (classes : t.HasClasses ds) (wellTyped : t.WellTyped limits.fields) (orderly : t.Orderly) :
    t'.HasClasses (ds ++ rest) := by
  induction declares generalizing ds with
  | nil => simpa using classes
  | cons first _ ih =>
    simpa using ih (first.hasClasses classes wellTyped orderly) (first.wellTyped wellTyped orderly)
      (first.gains orderly).1

/-- No class is declared at the start of a program. -/
theorem Program.start_hasClasses (p : Program) : p.start.HasClasses [] := by
  have initial : SymbolTable.initial.HasClasses [] := by
    refine ⟨by simp, fun name a isClassOf => ?_, fun a isClass notNull => ?_,
      Based.fieldNames_null (.refl _)⟩
    · obtain ⟨id, isType, _, rfl, isClass⟩ := isClassOf
      have all : ∀ i < SymbolTable.initial.entities.size,
          (SymbolTable.initial.entity ⟨i⟩).kind = .type →
          SymbolTable.initial.types.isClass (SymbolTable.initial.entity ⟨i⟩).type = false := by
        decide
      rw [all id.index (of_decide_eq_true (contains_of_type isType)) isType] at isClass
      cases isClass
    · have inside := contains_of_isClass isClass
      have all : ∀ i < SymbolTable.initial.types.size,
          SymbolTable.initial.types.isClass ⟨i⟩ = true → (⟨i⟩ : TypeId) = .null := by decide
      exact absurd (all a.index (of_decide_eq_true inside) isClass) notNull
  have adds : SymbolTable.initial.AddsNoClass p.start :=
    (robust_addsNoClass _).scopes _ _ ((AddsNoClass.refl _).enter (by simp))
  exact initial.grow (initial_wellTyped 0) p.start_based adds

section

variable {start : SymbolTable} (adds : start.AddsNoClass t) {base : Nat} {m : Method}

include adds

theorem ResultType.addsNoClass {n : Option TypeName} {type : TypeId} {name : String}
    (result : ResultType t n type t') : start.AddsNoClass (t'.enterMethod name type base) :=
  ((result.preserves (robust_addsNoClass start).array adds).enter (by simp)).modify fun _ => rfl

theorem Method.Opens.addsNoClass (opens : m.Opens t base t') : start.AddsNoClass t' :=
  opens.preserves (robust_addsNoClass start) (·.addsNoClass adds)

theorem Method.Compiles.addsNoClass {items : List Item}
    (compiles : m.Compiles limits t base items t') : start.AddsNoClass t' :=
  compiles.preserves (robust_addsNoClass start) (·.addsNoClass adds)

theorem Method.CompileAll.addsNoClass {ms : List Method}
    (compiles : Method.CompileAll limits t base ms segments t') : start.AddsNoClass t' := by
  induction compiles with
  | nil => exact adds
  | cons first _ ih => exact ih (first.addsNoClass adds)

end

end Syntax

end MicroJava

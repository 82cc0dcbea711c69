import MicroJava.Proofs.Simulation.Expression
import MicroJava.Proofs.Translation.Scopes

/-! # Names of programs with integers

The declarations of a program with integers leave a symbol table that knows every name of the
program: local variables of `main` at their slots, global variables at theirs, and constants with
their values.
-/

namespace MicroJava

open List

variable {kind : EntityKind}

namespace Scope

variable {t u : SymbolTable} {s : Scope} {vars : List String} {consts : List (String × Int32)}

/-- The constant that an entity is. -/
def constantOf? (e : Entity) : Option (String × Int32) :=
  if e.kind = .con then some (e.name, e.value) else none

/-- Whether a scope has the given variables and constants, in order, all of them integers. What else
it has is a method of which `methods` holds. -/
structure Lists (t : SymbolTable) (vars : List String) (consts : List (String × Int32))
    (methods : String → Prop) (s : Scope) : Prop where
  vars : (s.slots t).map (fun id => (t.entity id).name) = vars
  constants : s.declarations.filterMap (fun id => constantOf? (t.entity id)) = consts
  ints : ∀ id ∈ s.entries, ((t.entity id).kind = .var ∨ (t.entity id).kind = .con) ∧
    (t.entity id).type = .int ∨ (t.entity id).kind = .method ∧ methods (t.entity id).name

variable {methods : String → Prop}

private theorem lists_empty : ({} : Scope).Lists t [] [] methods :=
  ⟨rfl, rfl, by simp⟩

section

variable (lists : s.Lists t vars consts methods)

include lists

theorem Lists.congr (same : ∀ id ∈ s.entries, u.entity id = t.entity id) :
    s.Lists u vars consts methods where
  vars := by
    have slots : s.slots u = s.slots t := slots_congr fun id member => by rw [same id member]
    rw [slots, ← lists.vars]
    refine map_congr_left fun id member => ?_
    rw [same id (mem_reverse.mp (mem_of_mem_filter member))]
  constants := by
    rw [← lists.constants]
    exact filterMap_congr fun id member => by rw [same id (mem_reverse.mp member)]
  ints id member := by
    rw [same id member]
    exact lists.ints id member

/-- One more entity at the end of a scope. -/
theorem Lists.insert (same : ∀ id ∈ s.entries, u.entity id = t.entity id) {id : EntityId}
    {more : String → Prop}
    (fits : ((u.entity id).kind = .var ∨ (u.entity id).kind = .con) ∧ (u.entity id).type = .int ∨
      (u.entity id).kind = .method ∧ more (u.entity id).name)
    (weaker : ∀ name, methods name → more name) :
    (s.insert id kind).Lists u
      (vars ++ if (u.entity id).kind = .var then [(u.entity id).name] else [])
      (consts ++ (constantOf? (u.entity id)).toList) more := by
  have old := lists.congr same
  refine ⟨?_, ?_, fun other member => ?_⟩
  · rw [← old.vars]
    by_cases isVar : (u.entity id).kind = .var <;>
      simp [Scope.slots, declarations, Scope.insert, isVar]
  · rw [← old.constants]
    cases constant : constantOf? (u.entity id) <;> simp [declarations, Scope.insert, constant]
  · rcases mem_cons.mp member with rfl | member
    · exact fits
    · exact (old.ints other member).imp_right (And.imp_right (weaker _))

/-- What is declared in a scope is one of its names. -/
theorem Lists.names {id : EntityId} (member : id ∈ s.entries) :
    (t.entity id).name ∈ vars ∨ (∃ value, ((t.entity id).name, value) ∈ consts) ∨
      methods (t.entity id).name := by
  have declared : id ∈ s.declarations := mem_reverse.mpr member
  rcases lists.ints id member with ⟨isVar | isCon, _⟩ | ⟨_, isMethod⟩
  · left
    rw [← lists.vars]
    exact mem_map.mpr ⟨id, mem_filter.mpr ⟨declared, by simp [isVar]⟩, rfl⟩
  · right; left
    rw [← lists.constants]
    exact ⟨(t.entity id).value, mem_filterMap.mpr ⟨id, declared, by simp [constantOf?, isCon]⟩⟩
  · exact .inr (.inr isMethod)

end

variable {name : String}

theorem Lists.isInt (lists : s.Lists t vars consts methods) {id : EntityId} (member : id ∈ s.entries)
    (noMethod : (t.entity id).kind ≠ .method) : (t.entity id).type = .int := by
  rcases lists.ints id member with ⟨_, isInt⟩ | ⟨isMethod, _⟩
  · exact isInt
  · exact absurd isMethod noMethod

/-- The slot of a name. -/
theorem Lists.slot {level : Nat} (lists : s.Lists t vars consts methods)
    (orderly : s.Orderly t level) {i : Nat} (found : vars[i]? = some name) :
    ∃ id, t.search s.entries name = some id ∧ (t.entity id).kind = .var ∧
      (t.entity id).type = .int ∧ (t.entity id).adr = i ∧ (t.entity id).level = level := by
  rw [← lists.vars, getElem?_map, Option.map_eq_some_iff] at found
  obtain ⟨id, found, rfl⟩ := found
  obtain ⟨member, isVar⟩ := mem_entries_of_slots found
  exact ⟨id, orderly.search member, isVar, lists.isInt member (by simp [isVar]),
    orderly.slot i id found⟩

theorem Lists.constant {level : Nat} (lists : s.Lists t vars consts methods)
    (orderly : s.Orderly t level) {value : Int32} (found : (name, value) ∈ consts) :
    ∃ id, t.search s.entries name = some id ∧ (t.entity id).kind = .con ∧
      (t.entity id).type = .int ∧ (t.entity id).value = value := by
  rw [← lists.constants, mem_filterMap] at found
  obtain ⟨id, declared, isConstant⟩ := found
  have member := mem_reverse.mp declared
  unfold constantOf? at isConstant
  split at isConstant
  · next isCon =>
    cases isConstant
    exact ⟨id, orderly.search member, isCon, lists.isInt member (by simp [isCon]), rfl⟩
  · cases isConstant

end Scope

namespace Syntax

open SymbolTable

variable {t t' : SymbolTable} {outer : List Scope} {vars : List String}
  {consts : List (String × Int32)} {methods : String → Prop} {name : String}

/-- Whether the type of integers is visible under its name, unless something else is. -/
def IntIsKnown (t : SymbolTable) : Prop :=
  ∀ s ∈ t.scopes, ∀ id ∈ s.entries, (t.entity id).kind = .type → (t.entity id).name = "int" →
    (t.entity id).type = .int

/-- A table in which the variables and constants of a scope are being declared. -/
structure Declaring (outer : List Scope) (vars : List String) (consts : List (String × Int32))
    (t : SymbolTable) : Prop where
  current : ∃ s, t.scopes = s :: outer ∧ s.Lists t vars consts fun _ => False
  orderly : t.Orderly
  types : IntIsKnown t

theorem TypeName.Resolves.ofInt {n : TypeName} {type : TypeId} (resolves : n.Resolves t type t')
    (isInt : n.isInt = true) (types : IntIsKnown t) : type = .int ∧ t = t' := by
  obtain rfl : n = ⟨"int", false⟩ := by simpa [TypeName.isInt] using isInt
  cases resolves with
  | plain found isType =>
    obtain ⟨s, open_, found⟩ := exists_of_findSome?_eq_some found
    obtain ⟨member, named⟩ := Scope.mem_of_search found
    exact ⟨types s open_ _ member isType named, rfl⟩

/-- Declaring anything but a type keeps the type of integers. -/
theorem IntIsKnown.insert {u : SymbolTable} {s : Scope} (types : IntIsKnown t) (orderly : t.Orderly)
    (scopes : t.scopes = s :: outer) (scopes' : u.scopes = s.insert t.next kind :: outer)
    (persists : t.Persists u) (noType : (u.entity t.next).kind ≠ .type) : IntIsKnown u := by
  intro s' open_ id member isType
  have old {s'} (open_ : s' ∈ t.scopes) (member : id ∈ s'.entries) :
      (u.entity id).name = "int" → (u.entity id).type = .int := by
    have same := persists.entity id (orderly.inside open_ member)
    rw [same] at isType ⊢
    exact types s' open_ id member isType
  rw [scopes'] at open_
  rcases mem_cons.mp open_ with rfl | open_
  · rcases mem_cons.mp member with rfl | member
    · exact absurd isType noType
    · have open_ : s ∈ t.scopes := by simp [scopes]
      exact old open_ member
  · exact old (by simp [scopes, open_]) member

section

variable (declaring : Declaring outer vars consts t)

include declaring

/-- Declaring an integer, whose value may be set at once. -/
theorem Declaring.insert {u : SymbolTable}
    (scopes' : u.scopes = t.scopes.modifyHead (·.insert t.next kind)) (persists : t.Persists u)
    (orderly' : u.Orderly) (isValue : (u.entity t.next).kind = .var ∨ (u.entity t.next).kind = .con)
    (isInt : (u.entity t.next).type = .int) :
    Declaring outer (vars ++ if (u.entity t.next).kind = .var then [(u.entity t.next).name] else [])
      (consts ++ (Scope.constantOf? (u.entity t.next)).toList) u := by
  obtain ⟨⟨s, scopes, lists⟩, orderly, types⟩ := declaring
  rw [scopes, modifyHead_cons] at scopes'
  have noType : (u.entity t.next).kind ≠ .type := by
    rcases isValue with isValue | isValue <;> simp [isValue]
  refine ⟨⟨_, scopes', lists.insert (fun id member => ?_) (.inl ⟨isValue, isInt⟩) fun _ => id⟩,
    orderly', types.insert orderly scopes scopes' persists noType⟩
  exact persists.entity id (orderly.inside (by simp [scopes]) member)

theorem Declaring.variable_ (fresh : t.Fresh name) :
    Declaring outer (vars ++ [name]) consts (t.enter .var name .int) := by
  have entity : (t.enter .var name .int).entity t.next = t.newEntity .var name .int :=
    entity_enter_next
  have entered := declaring.insert (u := t.enter .var name .int) rfl (Persists.refl t).enter
    (declaring.orderly.enter fresh) (by simp [entity, newEntity]) (by simp [entity, newEntity])
  simpa [entity, newEntity, Scope.constantOf?] using entered

theorem Declaring.constant (fresh : t.Fresh name) (value : Int32) :
    Declaring outer vars (consts ++ [(name, value)])
      ((t.enter .con name .int).modify t.next fun e => { e with value }) := by
  have entity : ((t.enter .con name .int).modify t.next fun e => { e with value }).entity t.next =
      { t.newEntity .con name .int with value } := by
    rw [entity_modify _ (contains_enter.mpr (.inr rfl)), entity_enter_next]
  have entered := declaring.insert
    (u := (t.enter .con name .int).modify t.next fun e => { e with value }) rfl
    ((Persists.refl t).enter.modify _ (Nat.le_refl _))
    ((declaring.orderly.enter fresh).modify ⟨rfl, rfl, fun _ => ⟨rfl, rfl⟩⟩)
    (by simp [entity, newEntity]) (by simp [entity, newEntity])
  simpa [entity, newEntity, Scope.constantOf?] using entered

end

theorem DeclareNames.declaring {names : List String} (declares : DeclareNames .int t names t')
    (declaring : Declaring outer vars consts t) : Declaring outer (vars ++ names) consts t' := by
  generalize isInt : TypeId.int = type at declares
  induction declares generalizing vars with
  | nil => simpa using declaring
  | @cons t name rest t' fresh more ih =>
    subst isInt
    simpa using ih (declaring.variable_ fresh)

theorem VarDecl.DeclareAll.declaring {ds : List VarDecl} (declares : VarDecl.DeclareAll t ds t')
    (isInt : ds.all (·.type.isInt) = true) (declaring : Declaring outer vars consts t) :
    Declaring outer (vars ++ ds.flatMap VarDecl.names) consts t' := by
  induction declares generalizing vars with
  | nil => simpa using declaring
  | cons resolved names more ih =>
    simp only [all_cons, Bool.and_eq_true] at isInt
    obtain ⟨rfl, rfl⟩ := resolved.ofInt isInt.1 declaring.types
    simpa using ih isInt.2 (names.declaring declaring)

theorem Decl.DeclareAll.declaring {limits : Limits} {ds : List Decl}
    (declares : Decl.DeclareAll limits t ds t') (isInt : ds.all Decl.isInt = true)
    (declaring : Declaring outer vars consts t) :
    Declaring outer (vars ++ ds.flatMap Decl.varNames) (consts ++ ds.filterMap Decl.constant?) t' := by
  induction declares generalizing vars consts with
  | nil => simpa using declaring
  | cons first more ih =>
    simp only [all_cons, Bool.and_eq_true] at isInt
    cases first with
    | @const type name literal _ resolved fresh =>
      cases literal with
      | character => simp [Decl.isInt] at isInt
      | number value =>
        obtain ⟨_, rfl⟩ := resolved.ofInt isInt.1 declaring.types
        have declared := ih isInt.2 (declaring.constant fresh value)
        simpa [Decl.varNames, Decl.constant?, filterMap_cons] using declared
    | vars resolved names =>
      obtain ⟨rfl, rfl⟩ := resolved.ofInt isInt.1 declaring.types
      simpa [Decl.varNames, Decl.constant?, filterMap_cons] using
        ih isInt.2 (names.declaring declaring)
    | classDecl => simp [Decl.isInt] at isInt

/-! ## The scopes of `main` -/

theorem Names.known {names : Names} {l s u : Scope} (orderly : t.Orderly)
    (scopes : t.scopes = [l, s, u]) (locals : l.Lists t names.locals [] fun _ => False)
    (globals : s.Lists t names.globals names.constants methods) (localsFit : t.varCount ≤ 0x7f)
    (globalsFit : names.globals.length ≤ 0x7fff) : names.Known t := by
  have orderlyL : l.Orderly t 1 := orderly l [s, u] (scopes ▸ suffix_rfl)
  have orderlyS : s.Orderly t 0 := orderly s [u] (scopes ▸ suffix_cons _ _)
  have lookup (name) : t.lookup? name =
      (t.search l.entries name).or ((t.search s.entries name).or (t.search u.entries name)) := by
    rw [lookup?, scopes]
    cases inL : t.search l.entries name <;> cases inS : t.search s.entries name <;>
      cases inU : t.search u.entries name <;> simp [inL, inS, inU]
  have hidden {name} (visible : name ∉ names.locals) : t.search l.entries name = none := by
    cases found : t.search l.entries name with
    | none => rfl
    | some id =>
      obtain ⟨member, rfl⟩ := Scope.mem_of_search found
      rcases locals.names member with isLocal | ⟨_, isConstant⟩ | isMethod
      · exact absurd isLocal visible
      · simp at isConstant
      · exact isMethod.elim
  refine ⟨fun name declared => ?_, ?_, ?_, ?_, globalsFit⟩
  · by_cases visible : name ∈ names.locals
    · obtain ⟨i, slot⟩ := getElem?_of_mem visible
      obtain ⟨id, found, isVar, isInt, adr, level⟩ := locals.slot orderlyL slot
      exact ⟨id, by simp [lookup, found], isInt, .localVar slot isVar (by simp [level]) adr⟩
    · cases constant : names.constants.lookup name with
      | some value =>
        obtain ⟨front, back, split, _⟩ := lookup_eq_some_iff.mp constant
        have listed : (name, value) ∈ names.constants := by simp [split]
        obtain ⟨id, found, isCon, isInt, rfl⟩ := globals.constant orderlyS listed
        exact ⟨id, by simp [lookup, hidden visible, found], isInt, .constant visible constant isCon⟩
      | none =>
        have isGlobal : name ∈ names.globals := by
          simpa [Names.declares, visible, constant] using declared
        obtain ⟨i, slot⟩ := getElem?_of_mem isGlobal
        obtain ⟨id, found, isVar, isInt, adr, level⟩ := globals.slot orderlyS slot
        exact ⟨id, by simp [lookup, hidden visible, found], isInt,
          .globalVar visible constant slot isVar level adr⟩
  · rw [← locals.vars]
    exact orderlyL.distinct_slots
  · rw [← globals.vars]
    exact orderlyS.distinct_slots
  · rw [← locals.vars, length_map, ← orderlyL.count]
    simpa [varCount, scopes] using localsFit

theorem IntIsKnown.openScope (types : IntIsKnown t) : IntIsKnown t.openScope := by
  intro s open_ id member
  rcases mem_cons.mp open_ with rfl | open_
  · simp at member
  · exact types s open_ id member

theorem Program.start_declaring {p : Program} (fresh : SymbolTable.initial.Fresh p.name) :
    ∃ outermost, Declaring [outermost] [] [] p.start := by
  have initial : IntIsKnown .initial := by
    unfold IntIsKnown
    decide
  have types : IntIsKnown (SymbolTable.initial.enter .program p.name .none) := by
    refine initial.insert initial_orderly rfl rfl (Persists.refl _).enter ?_
    rw [entity_enter_next, kind_newEntity]
    decide
  exact ⟨_, ⟨_, rfl, Scope.lists_empty⟩, Program.start_orderly fresh, types.openScope⟩

/-- The scope of a method without parameters. -/
theorem Declaring.openMethod {outermost : Scope} (declaring : Declaring [outermost] vars consts t)
    (fresh : t.Fresh name) (type : TypeId) (base : Nat) (locals : List EntityId) :
    ∃ s : Scope, s.Lists ((t.enterMethod name type base).openScope.modify t.next fun e =>
        { e with locals }) vars consts (fun _ => True) ∧
      Declaring [s, outermost] [] []
        ((t.enterMethod name type base).openScope.modify t.next fun e => { e with locals }) := by
  obtain ⟨⟨s, scopes, lists⟩, orderly, types⟩ := declaring
  have open_ : s ∈ t.scopes := by simp [scopes]
  have persists : t.Persists ((t.enterMethod name type base).modify t.next fun e =>
      { e with locals }) :=
    ((Persists.refl t).enter.modify _ (Nat.le_refl _)).modify _ (Nat.le_refl _)
  have isMethod := ((robust_begins ..).modify _ t.next (fun e => { e with locals })
    (fun _ => ⟨rfl, rfl, rfl⟩) (begins_enterMethod t name type base)).kind
  have orderly' : ((t.enterMethod name type base).modify t.next fun e => { e with locals }).Orderly :=
    (orderly.enterMethod fresh base).modify ⟨rfl, rfl, fun _ => ⟨rfl, rfl⟩⟩
  have scopes' : ((t.enterMethod name type base).modify t.next fun e => { e with locals }).scopes =
      [s.insert t.next .method, outermost] := by
    change t.scopes.modifyHead _ = _
    rw [scopes]
    rfl
  rw [openScope_modify]
  generalize (t.enterMethod name type base).modify t.next _ = u at *
  have types' : IntIsKnown u := types.insert orderly scopes scopes' persists (by simp [isMethod])
  refine ⟨s.insert t.next .method, ?_, ⟨{}, ?_, Scope.lists_empty⟩, orderly'.openScope,
    types'.openScope⟩
  · have inserted : (s.insert t.next .method).Lists u _ _ fun _ => True :=
      lists.insert (fun id member => persists.entity id (orderly.inside open_ member))
        (.inr ⟨isMethod, trivial⟩) fun _ _ => trivial
    have opened := inserted.congr (u := u.openScope) fun _ _ => rfl
    simpa [isMethod, Scope.constantOf?] using opened
  · exact congrArg _ scopes'

end Syntax

end MicroJava

import Mathlib.Data.List.Find
import Mathlib.Logic.Function.Basic
import MicroJava.Proofs.Run.State
import MicroJava.Proofs.Translation.Table

/-! # Symbol tables that differ in names

`SymbolTable.Renamed` relates the tables of two programs that call their entities differently. What
a name means in one table, the other name means in the other table, as long as no two names become
one and the names that stand for the same thing in every program stay what they are.
-/

namespace MicroJava

open List

/-! ## Other names -/

/-- The lexeme with another name. -/
def Lexeme.rename (f : String → String) : Lexeme → Lexeme
  | ident name => .ident (f name)
  | other => other

/-- The problem with another name. -/
def SemanticProblem.rename (f : String → String) : SemanticProblem → SemanticProblem
  | methodNotFound name => .methodNotFound (f name)
  | alreadyDeclared name => .alreadyDeclared (f name)
  | notField name => .notField (f name)
  | notFound name => .notFound (f name)
  | other => other

/-- The problem with another name. -/
def Problem.rename (f : String → String) : Problem → Problem
  | semantic p => .semantic (p.rename f)
  | other => other

/-- Whether a problem names nothing, and is no lexical one. Instances are found by evaluating it. -/
@[reducible] def Problem.isPlain : Problem → Bool
  | lexical _ => false
  | semantic (.methodNotFound _) | semantic (.alreadyDeclared _) => false
  | semantic (.notField _) | semantic (.notFound _) => false
  | _ => true

@[simp] theorem Lexeme.rename_id (x : Lexeme) : x.rename id = x := by
  cases x <;> rfl

@[simp] theorem Problem.rename_id (p : Problem) : p.rename id = p := by
  cases p with
  | semantic p => cases p <;> rfl
  | _ => rfl

/-- The names that stand for the same thing in every program: predeclared ones, the method that a
program begins with, and those that the parser makes up from tokens that are no identifiers. -/
def reservedNames : List String :=
  ["", "int", "char", "null", "chr", "ord", "len", "main"] ++ Keyword.all.map Keyword.spelling

theorem Keyword.spelling_reserved (word : Keyword) : word.spelling ∈ reservedNames := by
  cases word <;> decide

@[simp] theorem Lexeme.kind_rename (f : String → String) (x : Lexeme) :
    (x.rename f).kind = x.kind := by
  cases x <;> rfl

@[simp] theorem Lexeme.value_rename (f : String → String) (x : Lexeme) :
    (x.rename f).value = x.value := by
  cases x <;> rfl

theorem Lexeme.name_rename {f : String → String} (fixed : ∀ name ∈ reservedNames, f name = name)
    (x : Lexeme) : (x.rename f).name = f x.name := by
  have nameless : f "" = "" := fixed "" (by decide)
  cases x with
  | keyword word => exact (fixed _ word.spelling_reserved).symm
  | ident name => rfl
  | _ => exact nameless.symm

/-! ## Tables that differ in names -/

/-- Whether an entity is called by its other name, if it has one. A name never means what stands in
for something that was not found, or a parameter of a predeclared method. -/
def EntityId.IsNamed (f : String → String) (id : EntityId) : Prop :=
  (∀ name, f name = name) ∨ id ∉ [SymbolTable.missing, ⟨5⟩, ⟨7⟩, ⟨9⟩]

namespace SymbolTable

/-- Whether a table differs from another one only in the names of its entities. -/
structure Renamed (f : String → String) (t t' : SymbolTable) : Prop where
  types : t'.types = t.types
  predeclaredTypes : initial.types.size ≤ t.types.size
  scopes : t'.scopes = t.scopes
  size : t'.entities.size = t.entities.size
  predeclared : initial.entities.size ≤ t.entities.size
  entity : ∀ id, ∃ name, t'.entity id = { t.entity id with name }
  name : ∀ id : EntityId, id.IsNamed f → (t'.entity id).name = f (t.entity id).name
  entries : ∀ scope ∈ t.scopes, ∀ id ∈ scope.entries, id.IsNamed f
  fields : ∀ a, ∀ id ∈ t.types.fields a, id.IsNamed f

variable {f : String → String} {t t' : SymbolTable}

theorem initial_renamed (fixed : ∀ name ∈ reservedNames, f name = name) :
    initial.Renamed f initial where
  types := rfl
  predeclaredTypes := Nat.le_refl _
  scopes := rfl
  size := rfl
  predeclared := Nat.le_refl _
  entity := fun id => ⟨(initial.entity id).name, rfl⟩
  name := by
    intro id named
    have listed : ∀ i < 10, .mk i ∉ [missing, ⟨5⟩, ⟨7⟩, ⟨9⟩] →
        (initial.entity ⟨i⟩).name ∈ reservedNames := by decide
    rcases named with same | named
    · exact (same _).symm
    refine (fixed _ ?_).symm
    by_cases inside : id.index < 10
    · exact listed id.index inside named
    · have outside : initial.entity id = default := by
        simp [entity, initial, Array.getD, inside]
      rw [outside]
      decide
  entries := by
    have listed : ∀ scope ∈ initial.scopes, ∀ id ∈ scope.entries,
        id ∉ [missing, ⟨5⟩, ⟨7⟩, ⟨9⟩] := by decide
    exact fun scope member id inside => .inr (listed scope member id inside)
  fields := by
    intro a id member
    have none : initial.types.fields a = [] := by
      have listed : ∀ info ∈ initial.types.infos.toList, info.fields = [] := by decide
      rcases info_mem_or (t := initial.types) a with inside | outside
      · exact listed _ inside
      · rw [TypeTable.fields, outside]
        rfl
    simp [none] at member

/-- A table in which no name changes. -/
theorem Valid.renamed (valid : t.Valid) (same : ∀ name, f name = name) : t.Renamed f t where
  types := rfl
  predeclaredTypes := valid.types
  scopes := rfl
  size := rfl
  predeclared := valid.entities
  entity := fun id => ⟨(t.entity id).name, rfl⟩
  name := fun _ _ => (same _).symm
  entries := fun _ _ _ _ => .inl same
  fields := fun _ _ _ => .inl same

namespace Renamed

section

variable (renamed : t.Renamed f t')

include renamed

theorem contains (id : EntityId) : t'.contains id = t.contains id := by
  simp [SymbolTable.contains, renamed.size]

/-- What is found by a name is found by the other one. -/
theorem search (injective : Function.Injective f) {ids : List EntityId}
    (named : ∀ id ∈ ids, id.IsNamed f) (name : String) :
    t'.search ids (f name) = t.search ids name := by
  refine find?_congr fun id member => ?_
  rw [renamed.name id (named id member), Bool.eq_iff_iff, beq_iff_eq, beq_iff_eq, injective.eq_iff]

theorem lookup? (injective : Function.Injective f) (name : String) :
    t'.lookup? (f name) = t.lookup? name := by
  have entries := renamed.entries
  simp only [SymbolTable.lookup?, renamed.scopes]
  generalize t.scopes = scopes at entries
  induction scopes with
  | nil => rfl
  | cons scope scopes ih =>
    rw [findSome?_cons, findSome?_cons, renamed.search injective (entries scope (mem_cons_self ..)),
      ih fun other member => entries other (mem_cons_of_mem _ member)]

theorem findLocal? (injective : Function.Injective f) (name : String) :
    t'.findLocal? (f name) = t.findLocal? name := by
  unfold SymbolTable.findLocal?
  rw [renamed.scopes]
  cases scopes : t.scopes with
  | nil => rfl
  | cons scope others =>
    exact renamed.search injective (renamed.entries scope (by simp [scopes])) name

theorem kind (id : EntityId) : (t'.entity id).kind = (t.entity id).kind := by
  obtain ⟨name, same⟩ := renamed.entity id
  rw [same]

theorem isTypeName (injective : Function.Injective f) (name : String) :
    t'.isTypeName (f name) = t.isTypeName name := by
  unfold SymbolTable.isTypeName
  rw [renamed.lookup? injective]
  cases t.lookup? name with
  | none => rfl
  | some id => exact congrArg (· == EntityKind.type) (renamed.kind id)

/-- A change that has nothing to do with the name of an entity. -/
theorem modify {id : EntityId} (inside : t.contains id = true) {change : Entity → Entity}
    (blind : ∀ e name, change { e with name } = { change e with name }) :
    (t.modify id change).Renamed f (t'.modify id change) := by
  have inside' : t'.contains id = true := by rw [renamed.contains, inside]
  have named (e : Entity) : (change e).name = e.name := by
    have same := congrArg Entity.name (blind e e.name)
    exact same
  refine { renamed with size := ?_, predeclared := ?_, entity := fun other => ?_,
                        name := fun other shown => ?_ }
  · simp [SymbolTable.modify, renamed.size]
  · simpa [SymbolTable.modify] using renamed.predeclared
  · obtain ⟨name, same⟩ := renamed.entity other
    by_cases changed : other = id
    · subst changed
      refine ⟨name, ?_⟩
      rw [entity_modify _ inside, entity_modify _ inside', same]
      exact blind _ _
    · refine ⟨name, ?_⟩
      rw [entity_modify_ne _ changed, entity_modify_ne _ changed, same]
  · by_cases changed : other = id
    · subst changed
      rw [entity_modify _ inside, entity_modify _ inside', named, named]
      exact renamed.name other shown
    · rw [entity_modify_ne _ changed, entity_modify_ne _ changed]
      exact renamed.name other shown

theorem withTypes {types : TypeTable} (more : t.types.size ≤ types.size)
    (named : ∀ a, ∀ id ∈ types.fields a, id.IsNamed f) :
    { t with types }.Renamed f { t' with types } :=
  { renamed with
    types := rfl, predeclaredTypes := Nat.le_trans renamed.predeclaredTypes more, fields := named }

theorem openScope : t.openScope.Renamed f t'.openScope :=
  { renamed with
    scopes := by simp [SymbolTable.openScope, renamed.scopes]
    entries := by
      intro scope member
      rcases mem_cons.mp member with rfl | member
      · simp
      · exact renamed.entries scope member }

theorem add {e e' : Entity} (alike : ∃ name, e' = { e with name }) (named : e'.name = f e.name) :
    (t'.add e').1 = (t.add e).1 ∧ (t.add e).1.IsNamed f ∧ (t.add e).2.Renamed f (t'.add e').2 := by
  have entity {u : SymbolTable} (e : Entity) (id : EntityId) : (u.add e).2.entity id =
      if id.index = u.entities.size then e else u.entity id := by
    simp only [SymbolTable.entity, SymbolTable.add, Array.getD_eq_getD_getElem?,
      Array.getElem?_push]
    split <;> rfl
  have many : 10 ≤ t.entities.size := renamed.predeclared
  refine ⟨?_, ?_, { renamed with size := ?_, predeclared := ?_, entity := fun id => ?_,
                                 name := fun id shown => ?_ }⟩
  · simp [SymbolTable.add, renamed.size]
  · right
    simp only [missing, SymbolTable.add, mem_cons, EntityId.mk.injEq, not_mem_nil, or_false]
    omega
  · simp [SymbolTable.add, renamed.size]
  · exact Nat.le_trans renamed.predeclared (by simp [SymbolTable.add])
  · rw [entity, entity, renamed.size]
    split
    · exact alike
    · exact renamed.entity id
  · rw [entity, entity, renamed.size]
    split
    · exact named
    · exact renamed.name id shown

/-- Closing a scope leaves tables that differ only in names, and what it held can be named. -/
theorem closeScope {ids : List EntityId} {u : SymbolTable} (closed : t.closeScope = .ok (ids, u)) :
    ∃ u', t'.closeScope = .ok (ids, u') ∧ u.Renamed f u' ∧ ∀ id ∈ ids, id.IsNamed f := by
  unfold SymbolTable.closeScope at closed ⊢
  rw [renamed.scopes]
  cases scopes : t.scopes with
  | nil => simp [scopes] at closed
  | cons scope others =>
    rw [scopes] at closed
    cases closed
    have entries := renamed.entries
    rw [scopes] at entries
    refine ⟨_, rfl, { renamed with scopes := rfl, entries := ?_ }, ?_⟩
    · exact fun other member => entries other (mem_cons_of_mem _ member)
    · intro id member
      exact entries scope (mem_cons_self ..) id (mem_reverse.mp member)

end

end Renamed

end SymbolTable

/-- Whether two answers are the same but for the names in the problems, none of which the lexer
found. -/
structure Reported.Renamed {α : Type} (f : String → String) (r r' : Reported α) : Prop where
  result : r'.result = r.result
  problems : r'.problems = r.problems.map (Problem.rename f)
  notLexical : ∀ p ∈ r.problems, p.isLexical = false

namespace SymbolTable.Renamed

variable {f : String → String} {t t' : SymbolTable}

section

variable (renamed : t.Renamed f t')

include renamed

theorem find (injective : Function.Injective f) (name : String) :
    (t.find name).Renamed f (t'.find (f name)) := by
  unfold SymbolTable.find
  rw [renamed.lookup? injective]
  cases t.lookup? name with
  | none => exact ⟨rfl, rfl, by simp [Problem.isLexical]⟩
  | some id => exact ⟨rfl, rfl, by simp⟩

theorem findField (injective : Function.Injective f) (name : String) (type : TypeId) :
    (t.findField name type).Renamed f (t'.findField (f name) type) := by
  have named : ∀ id ∈ (t.types.fields type).reverse, id.IsNamed f := by
    intro id member
    exact renamed.fields type id (mem_reverse.mp member)
  unfold SymbolTable.findField
  rw [renamed.types, renamed.search injective named]
  cases t.search (t.types.fields type).reverse name with
  | none => exact ⟨rfl, rfl, by simp [Problem.isLexical]⟩
  | some id => exact ⟨rfl, rfl, by simp⟩

theorem findMethod (injective : Function.Injective f) (name : String) :
    (t.findMethod name).Renamed f (t'.findMethod (f name)) := by
  unfold SymbolTable.findMethod
  rw [renamed.lookup? injective]
  cases t.lookup? name with
  | none => exact ⟨rfl, rfl, by simp [Problem.isLexical]⟩
  | some id =>
    simp only [renamed.kind]
    split
    · exact ⟨rfl, rfl, by simp⟩
    · exact ⟨rfl, rfl, by simp [Problem.isLexical]⟩

theorem next : t'.next = t.next :=
  congrArg EntityId.mk renamed.size

theorem enter (kind : EntityKind) (name : String) (type : TypeId) :
    (t.enter kind name type).Renamed f (t'.enter kind (f name) type) := by
  have alike : t'.newEntity kind (f name) type =
      { t.newEntity kind name type with name := f name } := by
    simp only [newEntity, varCount, level, renamed.scopes]
    split <;> rfl
  have named : (t.newEntity kind name type).name = name := by
    unfold newEntity
    split <;> rfl
  obtain ⟨_, nameable, added⟩ := renamed.add ⟨f name, alike⟩ (by rw [alike, named])
  refine { added with scopes := ?_, entries := ?_ }
  · simp only [SymbolTable.enter, renamed.scopes, renamed.next]
  · intro scope member
    cases scopes : t.scopes with
    | nil => simp [SymbolTable.enter, scopes] at member
    | cons current others =>
      have entries := renamed.entries
      rw [scopes] at entries
      simp only [SymbolTable.enter, scopes, modifyHead_cons, mem_cons] at member
      rcases member with rfl | member
      · intro id inside
        rcases mem_cons.mp inside with rfl | inside
        · exact nameable
        · exact entries current (mem_cons_self ..) id inside
      · exact entries scope (mem_cons_of_mem _ member)

/-- Declaring a name in one table and the other name in the other table. -/
theorem insert (injective : Function.Injective f) (nameless : f "" = "") {kind : EntityKind}
    {name : String} {type : TypeId} {id : EntityId} {u : SymbolTable} {problems : List Problem}
    (inserted : t.insert kind name type = .ok ⟨(id, u), problems⟩) :
    ∃ u', t'.insert kind (f name) type = .ok ⟨(id, u'), problems.map (Problem.rename f)⟩ ∧
      u.Renamed f u' ∧ ∀ p ∈ problems, p.isLexical = false := by
  have empty : f name = "" ↔ name = "" := by rw [← injective.eq_iff (a := name), nameless]
  by_cases unnamed : name = ""
  · subst unnamed
    simp only [SymbolTable.insert, if_true] at inserted
    cases inserted
    let e : Entity := { kind, name := "", type }
    have alike : ∃ name, { e with name := f "" } = { e with name } := ⟨f "", rfl⟩
    obtain ⟨_, _, added⟩ := renamed.add alike rfl
    refine ⟨_, ?_, added, by simp⟩
    rw [SymbolTable.insert, if_pos nameless]
    simp only [SymbolTable.add, renamed.size, map_nil, e]
  · by_cases none : t.scopes = []
    · simp [SymbolTable.insert, unnamed, none] at inserted
    · have some : t'.scopes ≠ [] := by rwa [renamed.scopes]
      rw [insert_eq unnamed none] at inserted
      cases inserted
      refine ⟨_, ?_, renamed.enter kind name type, ?_⟩
      · rw [insert_eq (mt empty.mp unnamed) some, renamed.findLocal? injective, renamed.next]
        split <;> rfl
      · split <;> simp [Problem.isLexical]

end

end SymbolTable.Renamed

end MicroJava

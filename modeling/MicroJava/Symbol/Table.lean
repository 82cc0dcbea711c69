import MicroJava.Fault
import MicroJava.Problem
import MicroJava.Symbol.Entity

/-! # The symbol table

Entities are kept in the order of their declaration and named by their index. The open scopes form a
stack; a name means its latest declaration in the innermost scope that has one. The outermost scope
holds what every program can use.
-/

namespace MicroJava

/-- A result together with the problems met on the way, in order. -/
structure Reported (α : Type) where
  result : α
  problems : List Problem := []

/-- The declarations of one program, class or method. -/
structure Scope where
  /-- What was declared, the latest first. -/
  entries : List EntityId := []
  /-- How many variables were declared. -/
  varCount : Nat := 0
deriving DecidableEq, Repr

namespace Scope

/-- What was declared, in order. -/
def declarations (s : Scope) : List EntityId := s.entries.reverse

/-- Adds a declaration. -/
def insert (s : Scope) (id : EntityId) (kind : EntityKind) : Scope where
  entries := id :: s.entries
  varCount := if kind = .var then s.varCount + 1 else s.varCount

end Scope

/-- The entities and types of a program, and the scopes that are open. -/
structure SymbolTable where
  types : TypeTable
  entities : Array Entity
  /-- The open scopes, the innermost first. -/
  scopes : List Scope
deriving DecidableEq, Repr

namespace SymbolTable

/-- Stands in for an entity that was not found. No scope contains it. -/
def missing : EntityId := ⟨0⟩

/-- The method that turns a number into a character. -/
def chr : EntityId := ⟨4⟩

/-- The method that turns a character into a number. -/
def ord : EntityId := ⟨6⟩

/-- The method that tells the length of an array. -/
def len : EntityId := ⟨8⟩

/-- The type of the parameter of `len`: an array of anything. -/
def openArray : TypeId := ⟨4⟩

/-- The table before any declaration: only the outermost scope is open. -/
def initial : SymbolTable where
  types := (TypeTable.initial.addArray .none).2
  entities := #[
    { kind := .var, name := "$none", type := .int },
    { kind := .type, name := "int", type := .int },
    { kind := .type, name := "char", type := .char },
    { kind := .con, name := "null", type := .null },
    { kind := .method, name := "chr", type := .char, parameterCount := 1, locals := [⟨5⟩] },
    { kind := .var, name := "i", type := .int },
    { kind := .method, name := "ord", type := .int, parameterCount := 1, locals := [⟨7⟩] },
    { kind := .var, name := "ch", type := .char },
    { kind := .method, name := "len", type := .int, parameterCount := 1, locals := [⟨9⟩] },
    { kind := .var, name := "arr", type := openArray }]
  scopes := [{ entries := [len, ord, chr, ⟨3⟩, ⟨2⟩, ⟨1⟩] }]

/-- Whether an entity is in the table. -/
def contains (t : SymbolTable) (id : EntityId) : Bool := id.index < t.entities.size

/-- The entity with a given name in the table. -/
def entity (t : SymbolTable) (id : EntityId) : Entity := t.entities.getD id.index default

/-- Changes an entity. -/
def modify (t : SymbolTable) (id : EntityId) (f : Entity → Entity) : SymbolTable :=
  { t with entities := t.entities.modify id.index f }

/-- Adds an entity that no scope contains. -/
def add (t : SymbolTable) (e : Entity) : EntityId × SymbolTable :=
  (⟨t.entities.size⟩, { t with entities := t.entities.push e })

/-- How deep the current scope is nested. The outermost scope and that of the program are both
global. -/
def level (t : SymbolTable) : Nat := t.scopes.length - 2

/-- The innermost scope. -/
def currentScope (t : SymbolTable) : Except Fault Scope :=
  match t.scopes with
  | [] => .error .noOpenScope
  | scope :: _ => .ok scope

/-- Opens a scope. -/
def openScope (t : SymbolTable) : SymbolTable := { t with scopes := {} :: t.scopes }

/-- Closes the innermost scope and yields its declarations, in order. -/
def closeScope (t : SymbolTable) : Except Fault (List EntityId × SymbolTable) :=
  match t.scopes with
  | [] => .error .scopeUnderflow
  | scope :: scopes => .ok (scope.declarations, { t with scopes })

/-- The first of several entities that has a given name. -/
def search (t : SymbolTable) (ids : List EntityId) (name : String) : Option EntityId :=
  ids.find? fun id => (t.entity id).name == name

/-- The latest declaration of a name in the current scope. -/
def findLocal? (t : SymbolTable) (name : String) : Option EntityId :=
  t.scopes.head?.bind fun scope => t.search scope.entries name

/-- The declaration that a name means. -/
def lookup? (t : SymbolTable) (name : String) : Option EntityId :=
  t.scopes.findSome? fun scope => t.search scope.entries name

/-- Declares a name in the current scope. A name that the scope already has is a problem; the new
declaration then hides the old one. The empty name, left over from a grammar problem, is not
entered into the scope. -/
def insert (t : SymbolTable) (kind : EntityKind) (name : String) (type : TypeId) :
    Except Fault (Reported (EntityId × SymbolTable)) :=
  if name = "" then .ok { result := t.add { kind, name, type } }
  else
    match t.scopes with
    | [] => .error .noOpenScope
    | scope :: scopes =>
      let problems :=
        if (t.findLocal? name).isSome then [.semantic (.alreadyDeclared name)] else []
      let e : Entity :=
        if kind = .var then { kind, name, type, adr := scope.varCount, level := t.level }
        else { kind, name, type }
      let (id, t) := t.add e
      .ok { result := (id, { t with scopes := scope.insert id kind :: scopes }), problems }

/-- The declaration that a name means; it is a problem if there is none. -/
def find (t : SymbolTable) (name : String) : Reported EntityId :=
  match t.lookup? name with
  | some id => { result := id }
  | none => { result := missing, problems := [.semantic (.notFound name)] }

/-- The method that a name means; it is a problem if there is none. -/
def findMethod (t : SymbolTable) (name : String) : Reported EntityId :=
  match t.lookup? name with
  | some id =>
    if (t.entity id).kind = .method then { result := id }
    else { result := missing, problems := [.semantic (.methodNotFound name)] }
  | none => { result := missing, problems := [.semantic (.methodNotFound name)] }

/-- The latest field of a class with a given name; it is a problem if there is none. -/
def findField (t : SymbolTable) (name : String) (type : TypeId) : Reported EntityId :=
  match t.search (t.types.fields type).reverse name with
  | some id => { result := id }
  | none => { result := missing, problems := [.semantic (.notField name)] }

/-- Whether a name means a type. -/
def isTypeName (t : SymbolTable) (name : String) : Bool :=
  match t.lookup? name with
  | some id => (t.entity id).kind == .type
  | none => false

end SymbolTable

end MicroJava

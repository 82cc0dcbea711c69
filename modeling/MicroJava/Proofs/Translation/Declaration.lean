import MicroJava.Compiler.Declaration
import MicroJava.Proofs.Translation.Statement

/-! # What declarations do to the symbol table

The rules follow the symbol table through every declaration of a program and state every condition
that keeps the compiler from reporting a problem. A method also compiles to items: its frame is set
up, its statements run, and its end leaves the frame or traps.
-/

namespace MicroJava

namespace SymbolTable

/-- What was declared in the current scope, in order. -/
def declared (t : SymbolTable) : List EntityId := t.scopes.head?.elim [] Scope.declarations

/-- How many variables were declared in the current scope. -/
def varCount (t : SymbolTable) : Nat := t.scopes.head?.elim 0 Scope.varCount

/-- The table without its innermost scope. -/
def leave (t : SymbolTable) : SymbolTable := { t with scopes := t.scopes.tail }

/-- The entity that is declared next. -/
def next (t : SymbolTable) : EntityId := ⟨t.entities.size⟩

/-- What a declaration in the current scope says about its name. -/
def newEntity (t : SymbolTable) (kind : EntityKind) (name : String) (type : TypeId) : Entity :=
  if kind = .var then { kind, name, type, adr := t.varCount, level := t.level }
  else { kind, name, type }

/-- The table with one more declaration in the current scope. -/
def enter (t : SymbolTable) (kind : EntityKind) (name : String) (type : TypeId) : SymbolTable where
  types := t.types
  entities := t.entities.push (t.newEntity kind name type)
  scopes := t.scopes.modifyHead (·.insert t.next kind)

/-- The table with one more method, whose code begins at an address. -/
def enterMethod (t : SymbolTable) (name : String) (type : TypeId) (base : Nat) : SymbolTable :=
  (t.enter .method name type).modify t.next fun e => { e with adr := base }

/-- Whether a name can be declared in the current scope. -/
def Fresh (t : SymbolTable) (name : String) : Prop := name ≠ "" ∧ t.findLocal? name = none

instance (t : SymbolTable) (name : String) : Decidable (t.Fresh name) :=
  inferInstanceAs (Decidable (_ ∧ _))

/-- Adds a class to a symbol table. -/
def addClass (t : SymbolTable) : TypeId × SymbolTable :=
  (t.types.addClass.1, { t with types := t.types.addClass.2 })

/-- Sets the fields of a class of a symbol table. -/
def setFields (t : SymbolTable) (type : TypeId) (fields : List EntityId) : SymbolTable :=
  { t with types := t.types.setFields type fields }

theorem insert_eq {t : SymbolTable} {name : String} (named : name ≠ "") (inScope : t.scopes ≠ [])
    (kind : EntityKind) (type : TypeId) :
    t.insert kind name type = .ok {
      result := (t.next, t.enter kind name type)
      problems := if (t.findLocal? name).isSome then [.semantic (.alreadyDeclared name)] else [] } := by
  cases scopes : t.scopes with
  | nil => exact absurd scopes inScope
  | cons scope outer =>
    simp [insert, named, scopes, add, next, enter, newEntity, varCount]

end SymbolTable

namespace Syntax

open SymbolTable

/-- The type that a type name means, and the table with the array type it may add. -/
inductive TypeName.Resolves : SymbolTable → TypeName → TypeId → SymbolTable → Prop where
  | plain {t name id} (found : t.lookup? name = some id) (isType : (t.entity id).kind = .type) :
      Resolves t ⟨name, false⟩ (t.entity id).type t
  | array {t name id} (found : t.lookup? name = some id) (isType : (t.entity id).kind = .type) :
      Resolves t ⟨name, true⟩ (t.addArray (t.entity id).type).1 (t.addArray (t.entity id).type).2

/-- Variables of one type that are declared one after the other. -/
inductive DeclareNames (type : TypeId) : SymbolTable → List String → SymbolTable → Prop where
  | nil {t} : DeclareNames type t [] t
  | cons {t name rest t'} (fresh : t.Fresh name)
      (more : DeclareNames type (t.enter .var name type) rest t') :
      DeclareNames type t (name :: rest) t'

/-- Declarations of variables. -/
inductive VarDecl.DeclareAll : SymbolTable → List VarDecl → SymbolTable → Prop where
  | nil {t} : DeclareAll t [] t
  | cons {t d type t₁ t₂ rest t'} (resolved : d.type.Resolves t type t₁)
      (names : DeclareNames type t₁ d.names t₂) (more : DeclareAll t₂ rest t') :
      DeclareAll t (d :: rest) t'

/-- The type of a literal. -/
def Literal.type : Literal → TypeId
  | number _ => .int
  | character _ => .char

/-- The value of a literal. -/
def Literal.value : Literal → Int32
  | number value => value
  | character value => value

/-- A global declaration. -/
inductive Decl.Declares (limits : Limits) : SymbolTable → Decl → SymbolTable → Prop where
  | const {t type name literal t₁} (resolved : type.Resolves t literal.type t₁)
      (fresh : t₁.Fresh name) :
      Declares limits t (.const type name literal)
        ((t₁.enter .con name literal.type).modify t₁.next fun e =>
          { e with value := literal.value })
  | vars {t d type t₁ t'} (resolved : d.type.Resolves t type t₁)
      (names : DeclareNames type t₁ d.names t') : Declares limits t (.vars d) t'
  | classDecl {t name fields t'} (fresh : t.Fresh name)
      (fields_ : VarDecl.DeclareAll (t.addClass.2.enter .type name t.addClass.1).openScope fields t')
      (capacity : t'.varCount ≤ limits.fields) :
      Declares limits t (.classDecl name fields) (t'.leave.setFields t.addClass.1 t'.declared)

/-- Global declarations one after the other. -/
inductive Decl.DeclareAll (limits : Limits) : SymbolTable → List Decl → SymbolTable → Prop where
  | nil {t} : DeclareAll limits t [] t
  | cons {t d t₁ rest t'} (first : d.Declares limits t t₁) (more : DeclareAll limits t₁ rest t') :
      DeclareAll limits t (d :: rest) t'

/-- Parameters one after the other; the last of them is named too. -/
inductive Parameter.DeclareAll : SymbolTable → List Parameter → EntityId → SymbolTable → Prop where
  | one {t p type t₁} (resolved : p.type.Resolves t type t₁) (fresh : t₁.Fresh p.name) :
      DeclareAll t [p] t₁.next (t₁.enter .var p.name type)
  | cons {t p type t₁ rest last t'} (resolved : p.type.Resolves t type t₁) (fresh : t₁.Fresh p.name)
      (more : DeclareAll (t₁.enter .var p.name type) rest last t') :
      DeclareAll t (p :: rest) last t'

/-- Every parameter, in order. -/
def Parameters.all (ps : Parameters) : List Parameter := ps.first :: ps.rest

/-- The table in which the last parameter of a method collects further arguments. -/
def collectRest (t : SymbolTable) (method last : EntityId) : SymbolTable :=
  let (type, t) := t.addArray (t.entity last).type
  (t.modify last fun e => { e with type }).modify method fun e => { e with hasVarArgs := true }

/-- The parameters of a method, in the scope of the method. -/
inductive Parameters.Declare (method : EntityId) :
    SymbolTable → Option Parameters → SymbolTable → Prop where
  | none {t} : Declare method t none t
  | some {t ps last t'} (declared : Parameter.DeclareAll t ps.all last t') :
      Declare method t (some ps)
        ((if ps.variadic then collectRest t' method last else t').modify method fun e =>
          { e with parameterCount := ps.all.length })

/-- The type that a method returns. -/
inductive ResultType : SymbolTable → Option TypeName → TypeId → SymbolTable → Prop where
  | void {t} : ResultType t none .none t
  | type {t name type t'} (resolved : name.Resolves t type t') : ResultType t (some name) type t'

/-- The items of a method with its statements in between. -/
def methodItems (parameterCount varCount : Nat) (body : List Item) (type : TypeId) : List Item :=
  .plain .enter [parameterCount, varCount] ⟨rfl, rfl⟩ :: body ++ CodeBuffer.finishItems type

/-- A method whose code begins at an address. -/
inductive Method.Compiles (limits : Limits) :
    SymbolTable → Nat → Method → List Item → SymbolTable → Prop where
  | mk {t m type t₁ t₂ t₃ body t'} {base : Nat}
      (result : ResultType t m.result type t₁)
      (fresh : t₁.Fresh m.name)
      (parameters : Parameters.Declare t₁.next (t₁.enterMethod m.name type base).openScope
        m.parameters t₂)
      (locals : VarDecl.DeclareAll
        (t₂.modify t₁.next fun e => { e with locals := t₂.declared }) m.locals t₃)
      (capacity : t₃.varCount ≤ limits.locals)
      (main : m.name = "main" → type = .none ∧ (t₃.entity t₁.next).parameterCount = 0)
      (body_ : Stmt.Sequence (Stmt.Compiles Compile.maxNesting) ⟨(t₃.entity t₁.next).type, false⟩ t₃
        (base + 3) m.body body t')
      (near : Items.farCount base
        (methodItems (t₃.entity t₁.next).parameterCount t₃.varCount body type) = 0) :
      Compiles limits t base m
        (methodItems (t₃.entity t₁.next).parameterCount t₃.varCount body type)
        (t'.leave.modify t₁.next fun e => { e with locals := t'.declared })

/-- Methods one after the other, each with its own items. -/
inductive Method.CompileAll (limits : Limits) :
    SymbolTable → Nat → List Method → List (List Item) → SymbolTable → Prop where
  | nil {t base} : CompileAll limits t base [] [] t
  | cons {t base m items t₁ rest segments t'} (first : m.Compiles limits t base items t₁)
      (more : CompileAll limits t₁ (base + Items.size items) rest segments t') :
      CompileAll limits t base (m :: rest) (items :: segments) t'

/-- The entry point after methods were compiled one after the other. -/
def entryAfter (entry : Option Nat) (base : Nat) : List Method → List (List Item) → Option Nat
  | m :: rest, items :: segments =>
    entryAfter (if m.name = "main" then some base else entry) (base + Items.size items) rest segments
  | _, _ => entry

/-- The table in which the declarations of a program are made. -/
def Program.start (p : Program) : SymbolTable :=
  (SymbolTable.initial.enter .program p.name .none).openScope

/-- A whole program. The first table is the one after the global declarations, the second the one
after all methods; the scope of the program is still open in both. -/
structure Program.Compiles (limits : Limits) (p : Program) (globals final : SymbolTable)
    (segments : List (List Item)) : Prop where
  fresh : SymbolTable.initial.Fresh p.name
  decls : Decl.DeclareAll limits p.start p.decls globals
  capacity : globals.varCount ≤ limits.globals
  methods : Method.CompileAll limits globals 0 p.methods segments final
  main : (final.findMethod "main").problems = []

end Syntax

end MicroJava

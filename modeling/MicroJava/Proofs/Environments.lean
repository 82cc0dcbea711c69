import Mathlib.Data.List.Find
import MicroJava.Proofs.Translation.Table

/-! # The symbol table as a stack of environments

Scopes are opened and closed and names declared in any order. Beside the symbol table, a stack of
environments records what was declared where, with nothing but lists. However the actions are
interleaved, the table answers as the stack does: for names, for repeated declarations and for the
slots of variables. What is done in a scope of its own leaves no trace.
-/

namespace MicroJava

open SymbolTable List Scope

/-! ## Environments -/

/-- A declaration and the entity that stands for it. -/
structure Binding where
  id : EntityId
  kind : EntityKind
  name : String
  type : TypeId
deriving DecidableEq, Repr

/-- What was declared in one scope, the latest first. -/
abbrev Environment := List Binding

namespace Environment

/-- The latest declaration of a name. -/
def latest? (env : Environment) (name : String) : Option EntityId :=
  (env.find? (·.name == name)).map (·.id)

/-- The variables that were declared, in order. -/
def slots (env : Environment) : List Binding := (env.filter (·.kind == .var)).reverse

/-- Whether a name was declared. -/
def declares (env : Environment) (name : String) : Bool := env.any (·.name == name)

/-- What every program can use. -/
def outermost : Environment :=
  [⟨SymbolTable.len, .method, "len", .int⟩, ⟨ord, .method, "ord", .int⟩,
    ⟨chr, .method, "chr", .char⟩, ⟨⟨3⟩, .con, "null", .null⟩,
    ⟨⟨2⟩, .type, "char", .char⟩, ⟨⟨1⟩, .type, "int", .int⟩]

private theorem isSome_latest? (env : Environment) (name : String) :
    (env.latest? name).isSome = env.declares name := by
  rw [latest?, Option.isSome_map, isSome_find?, declares]

private theorem slots_cons (b : Binding) (env : Environment) :
    slots (b :: env) = slots env ++ if b.kind = .var then [b] else [] := by
  by_cases isVar : b.kind = .var <;> simp [slots, isVar]

end Environment

/-! ## Actions -/

/-- Something done to the scopes of a symbol table. -/
inductive ScopeAction where
  | opening
  | closing
  | declaring (kind : EntityKind) (name : String) (type : TypeId) (named : name ≠ "")

namespace ScopeAction

/-- Performs an action on a table, and records it in a stack of environments. -/
def perform : SymbolTable × List Environment → ScopeAction →
    Except Fault (SymbolTable × List Environment)
  | (t, envs), opening => .ok (t.openScope, [] :: envs)
  | (t, envs), closing => do
    let (_, t) ← t.closeScope
    return (t, envs.tail)
  | (t, envs), declaring kind name type _ => do
    let ⟨(id, t), _⟩ ← t.insert kind name type
    return (t, envs.modifyHead (⟨id, kind, name, type⟩ :: ·))

/-- Performs actions one after the other. -/
def performAll (actions : List ScopeAction) (state : SymbolTable × List Environment) :
    Except Fault (SymbolTable × List Environment) := actions.foldlM perform state

/-- How many scopes are open after some actions, beyond those that may not be closed. There is no
answer if one of those is closed. -/
def depthAfter : (depth : Nat) → List ScopeAction → Option Nat
  | depth, [] => some depth
  | depth, opening :: rest => depthAfter (depth + 1) rest
  | 0, closing :: _ => none
  | depth + 1, closing :: rest => depthAfter depth rest
  | depth, declaring .. :: rest => depthAfter depth rest

end ScopeAction

/-! ## What the table has in common with the stack -/

/-- Whether a symbol table answers as a stack of environments does. -/
structure SymbolTable.Refines (t : SymbolTable) (envs : List Environment) : Prop where
  /-- A name means its latest declaration in the innermost environment that has one. -/
  lookup (name : String) : t.lookup? name = envs.findSome? (·.latest? name)
  /-- Only the innermost environment counts in the current scope. -/
  findLocal (name : String) : t.findLocal? name = envs.head?.bind (·.latest? name)
  /-- What was said in a declaration is kept. -/
  kept : ∀ env ∈ envs, ∀ b ∈ env,
    (t.entity b.id).kind = b.kind ∧ (t.entity b.id).name = b.name ∧ (t.entity b.id).type = b.type
  /-- A declaration succeeds, and is a problem exactly if the current scope has the name. -/
  insert (kind : EntityKind) (name : String) (type : TypeId) (named : name ≠ "") :
    ∃ result, t.insert kind name type = .ok {
      result
      problems :=
        if (envs.head?.any (·.declares name)) then [.semantic (.alreadyDeclared name)] else [] }
  /-- The variables of a scope are numbered, and know how many scopes were open. -/
  slot {i : Nat} {env : Environment} (opened : envs[i]? = some env) {k : Nat} {b : Binding}
    (found : env.slots[k]? = some b) :
    (t.entity b.id).adr = k ∧ (t.entity b.id).level = envs.length - i - 2
  varCount : t.scopes.map (·.varCount) = envs.map (·.slots.length)

/-- Whether a scope holds the declarations of an environment. It is the last of `depth` open ones. -/
structure Scope.Holds (t : SymbolTable) (depth : Nat) (s : Scope) (env : Environment) : Prop where
  entries : s.entries = env.map (·.id)
  varCount : s.varCount = env.slots.length
  inside : ∀ b ∈ env, t.contains b.id = true
  kept : ∀ b ∈ env,
    (t.entity b.id).kind = b.kind ∧ (t.entity b.id).name = b.name ∧ (t.entity b.id).type = b.type
  slot {k : Nat} {b : Binding} (found : env.slots[k]? = some b) :
    (t.entity b.id).adr = k ∧ (t.entity b.id).level = depth - 2

/-- Whether scopes hold the declarations of environments, each in its place. -/
inductive Scope.HoldAll (t : SymbolTable) : List Scope → List Environment → Prop where
  | nil : HoldAll t [] []
  | cons {s env scopes envs} (first : s.Holds t (scopes.length + 1) env)
      (more : HoldAll t scopes envs) : HoldAll t (s :: scopes) (env :: envs)

variable {t u : SymbolTable} {s : Scope} {env : Environment} {scopes : List Scope}
  {envs : List Environment} {depth : Nat} {kind : EntityKind} {name : String} {type : TypeId}

namespace Scope.Holds

private theorem mem_of_slots {k : Nat} {b : Binding} (found : env.slots[k]? = some b) :
    b ∈ env := by
  have member := mem_of_getElem? found
  exact (mem_filter.mp (mem_reverse.mp member)).1

theorem empty : ({} : Scope).Holds t depth [] where
  entries := rfl
  varCount := rfl
  inside := by simp
  kept := by simp
  slot found := by simp [Environment.slots] at found

theorem persists (holds : s.Holds t depth env) (persists : t.Persists u) : s.Holds u depth env where
  entries := holds.entries
  varCount := holds.varCount
  inside b member := persists.contains (holds.inside b member)
  kept b member := by
    rw [persists.entity _ (holds.inside b member)]
    exact holds.kept b member
  slot found := by
    rw [persists.entity _ (holds.inside _ (mem_of_slots found))]
    exact holds.slot found

theorem search (holds : s.Holds t depth env) (name : String) :
    t.search s.entries name = env.latest? name := by
  have names : ∀ b ∈ env, ((t.entity b.id).name == name) = (b.name == name) := by
    intro b member
    rw [(holds.kept b member).2.1]
  rw [SymbolTable.search, holds.entries, find?_map, Environment.latest?]
  congr 1
  exact find?_congr names

/-- A declaration goes to the current scope and the current environment. -/
theorem enter (holds : s.Holds t t.scopes.length env) (current : t.scopes.head? = some s)
    (kind : EntityKind) (name : String) (type : TypeId) :
    (s.insert t.next kind).Holds (t.enter kind name type) t.scopes.length
      (⟨t.next, kind, name, type⟩ :: env) := by
  have later : s.Holds (t.enter kind name type) t.scopes.length env :=
    holds.persists (Persists.refl t).enter
  constructor
  case entries => simp [insert, holds.entries]
  case varCount =>
    rw [Environment.slots_cons, length_append, ← holds.varCount]
    by_cases isVar : kind = .var <;> simp [insert, isVar]
  case inside =>
    intro b member
    rcases mem_cons.mp member with rfl | member
    · exact contains_enter.mpr (.inr rfl)
    · exact later.inside b member
  case kept =>
    intro b member
    rcases mem_cons.mp member with rfl | member
    · rw [entity_enter_next]
      unfold SymbolTable.newEntity
      split <;> exact ⟨rfl, rfl, rfl⟩
    · exact later.kept b member
  case slot =>
    intro k b found
    rw [Environment.slots_cons] at found
    rcases Nat.lt_or_ge k env.slots.length with early | late
    · rw [getElem?_append_left early] at found
      exact later.slot found
    · rw [getElem?_append_right late] at found
      by_cases isVar : kind = .var
      · -- The new variable: its number is the count of the earlier ones.
        simp only [isVar, if_true, getElem?_singleton] at found
        split at found
        · cases found
          rw [entity_enter_next]
          simp only [SymbolTable.newEntity, isVar, if_true, SymbolTable.varCount, current,
            Option.elim_some, holds.varCount, SymbolTable.level, and_true]
          omega
        · cases found
      · simp [isVar] at found

end Scope.Holds

namespace Scope.HoldAll

theorem persists (holds : HoldAll t scopes envs) (persists : t.Persists u) :
    HoldAll u scopes envs := by
  induction holds with
  | nil => exact .nil
  | cons first _ ih => exact .cons (first.persists persists) ih

section

variable (holds : HoldAll t scopes envs)

include holds

private theorem length_eq : scopes.length = envs.length := by
  induction holds with
  | nil => rfl
  | cons _ _ ih => simp [ih]

theorem lookup (name : String) :
    (scopes.findSome? fun s => t.search s.entries name) = envs.findSome? (·.latest? name) := by
  induction holds with
  | nil => rfl
  | cons first _ ih => rw [findSome?_cons, findSome?_cons, first.search, ih]

theorem findLocal (name : String) :
    (scopes.head?.bind fun s => t.search s.entries name) = envs.head?.bind (·.latest? name) := by
  cases holds with
  | nil => rfl
  | cons first _ => exact first.search name

theorem varCount : scopes.map (·.varCount) = envs.map (·.slots.length) := by
  induction holds with
  | nil => rfl
  | cons first _ ih => rw [map_cons, map_cons, first.varCount, ih]

/-- The environment that a number of scopes surround is held by a scope at that depth. -/
theorem get {i : Nat} (opened : envs[i]? = some env) :
    ∃ s : Scope, s.Holds t (envs.length - i) env := by
  induction holds generalizing i with
  | nil => simp at opened
  | @cons s first scopes envs holds more ih =>
    cases i with
    | zero =>
      obtain rfl := Option.some.inj opened
      rw [length_cons, ← more.length_eq]
      exact ⟨s, holds⟩
    | succ i =>
      rw [length_cons, Nat.add_sub_add_right]
      exact ih opened

/-- What a name means is in the table. -/
theorem contains {id : EntityId} (found : envs.findSome? (·.latest? name) = some id) :
    t.contains id = true := by
  obtain ⟨env, member, latest⟩ := exists_of_findSome?_eq_some found
  obtain ⟨b, first, rfl⟩ := Option.map_eq_some_iff.mp latest
  obtain ⟨i, opened⟩ := getElem?_of_mem member
  obtain ⟨s, holds⟩ := holds.get opened
  exact holds.inside b (mem_of_find?_eq_some first)

end

end Scope.HoldAll

/-- A table whose scopes hold what environments say answers as they do. -/
theorem SymbolTable.refines_of_holdAll (holds : HoldAll t t.scopes envs) (inScope : t.scopes ≠ []) :
    t.Refines envs := by
  have findLocal := holds.findLocal
  constructor
  case lookup => exact holds.lookup
  case findLocal => exact findLocal
  case kept =>
    intro env member b inside
    obtain ⟨i, opened⟩ := getElem?_of_mem member
    obtain ⟨s, holds⟩ := holds.get opened
    exact holds.kept b inside
  case insert =>
    intro kind name type named
    refine ⟨(t.next, t.enter kind name type), ?_⟩
    rw [insert_eq named inScope]
    have known : (t.findLocal? name).isSome = envs.head?.any (·.declares name) := by
      rw [findLocal?, findLocal]
      cases envs.head? with
      | none => rfl
      | some env => exact env.isSome_latest? name
    simp only [known]
  case slot =>
    intro i env opened k b found
    obtain ⟨s, holds⟩ := holds.get opened
    exact holds.slot found
  case varCount => exact holds.varCount

theorem SymbolTable.initial_holdAll : HoldAll initial initial.scopes [Environment.outermost] := by
  apply HoldAll.cons _ .nil
  constructor
  case entries => rfl
  case varCount => rfl
  case inside => decide
  case kept => decide
  case slot =>
    intro k b found
    simp [Environment.slots, Environment.outermost] at found

/-! ## Runs -/

namespace ScopeAction

/-- Whether a table agrees with a stack of environments. Above the scopes and environments `below`,
which no action reaches, there are one and `depth` more. -/
structure Stands (below : List Scope) (belowEnvs : List Environment) (depth : Nat) (t : SymbolTable)
    (envs : List Environment) : Prop where
  holds : Scope.HoldAll t t.scopes envs
  scopes : ∃ top, t.scopes = top ++ below ∧ top.length = depth + 1
  environments : ∃ top, envs = top ++ belowEnvs ∧ top.length = depth + 1

variable {below : List Scope} {belowEnvs : List Environment} {depth' : Nat}
  {actions : List ScopeAction}

/-- A new scope is above all others. -/
theorem Stands.opened (holds : HoldAll t t.scopes envs) :
    Stands t.scopes envs 0 t.openScope ([] :: envs) where
  holds := .cons .empty (holds.persists (.scopes (.refl t) _))
  scopes := ⟨[{}], rfl, rfl⟩
  environments := ⟨[[]], rfl, rfl⟩

/-- Closing a scope leads back to the scopes around it. -/
theorem perform_closing (holds : HoldAll t t.scopes (env :: envs)) :
    perform (t, env :: envs) closing = .ok (t.leave, envs) ∧
      HoldAll t.leave t.leave.scopes envs := by
  cases same : t.scopes with
  | nil =>
    have lengths := holds.length_eq
    simp [same] at lengths
  | cons s outer =>
    rw [same] at holds
    cases holds with
    | cons _ more =>
      constructor
      · simp only [perform, closeScope, same, leave]
        rfl
      · rw [leave, same]
        exact more.persists (.scopes (.refl t) _)

/-- A declaration in the current scope. -/
theorem perform_declaring (holds : HoldAll t t.scopes (env :: envs)) (kind : EntityKind)
    (type : TypeId) (named : name ≠ "") :
    perform (t, env :: envs) (declaring kind name type named) =
        .ok (t.enter kind name type, (⟨t.next, kind, name, type⟩ :: env) :: envs) ∧
      HoldAll (t.enter kind name type) (t.enter kind name type).scopes
        ((⟨t.next, kind, name, type⟩ :: env) :: envs) := by
  cases same : t.scopes with
  | nil =>
    have lengths := holds.length_eq
    simp [same] at lengths
  | cons s outer =>
    constructor
    · rw [perform, insert_eq named (by simp [same])]
      rfl
    · rw [same] at holds
      have entered : (t.enter kind name type).scopes = s.insert t.next kind :: outer := by
        simp [enter, same]
      rw [entered]
      cases holds with
      | cons first more =>
        have depth : t.scopes.length = outer.length + 1 := by simp [same]
        rw [← depth] at first
        have first := first.enter (by simp [same]) kind name type
        rw [depth] at first
        exact .cons first (more.persists (Persists.refl t).enter)

/-- One step: an action that closes nothing below. -/
theorem perform_stands (a : ScopeAction) (stands : Stands below belowEnvs depth t envs)
    (within : depthAfter depth [a] = some depth') :
    ∃ u envs', perform (t, envs) a = .ok (u, envs') ∧ t.Persists u ∧
      Stands below belowEnvs depth' u envs' := by
  obtain ⟨holds, ⟨top, scopes, length⟩, ⟨topEnvs, rfl, lengthEnvs⟩⟩ := stands
  obtain ⟨s, top, rfl⟩ := exists_cons_of_length_eq_add_one length
  obtain ⟨env, topEnvs, rfl⟩ := exists_cons_of_length_eq_add_one lengthEnvs
  rw [length_cons] at length lengthEnvs
  cases a with
  | opening =>
    obtain rfl : depth + 1 = depth' := Option.some.inj within
    refine ⟨_, _, rfl, .scopes (.refl t) _, (Stands.opened holds).holds, ?_, ?_⟩
    · exact ⟨{} :: s :: top, by simp [openScope, scopes], by simp [length]⟩
    · exact ⟨[] :: env :: topEnvs, rfl, by simp [lengthEnvs]⟩
  | closing =>
    cases depth with
    | zero => cases within
    | succ depth =>
      obtain rfl : depth = depth' := Option.some.inj within
      obtain ⟨done, holds⟩ := perform_closing holds
      refine ⟨_, _, done, .scopes (.refl t) _, holds, ?_, ?_⟩
      · exact ⟨top, by simp [leave, scopes], by omega⟩
      · exact ⟨topEnvs, rfl, by omega⟩
  | declaring kind name type named =>
    obtain rfl : depth = depth' := Option.some.inj within
    obtain ⟨done, holds⟩ := perform_declaring holds kind type named
    refine ⟨_, _, done, (Persists.refl t).enter, holds, ?_, ?_⟩
    · exact ⟨s.insert t.next kind :: top, by simp [enter, scopes], by simpa using length⟩
    · exact ⟨(⟨t.next, kind, name, type⟩ :: env) :: topEnvs, rfl, by simpa using lengthEnvs⟩

private theorem depthAfter_cons (a : ScopeAction) (rest : List ScopeAction) :
    depthAfter depth (a :: rest) = (depthAfter depth [a]).bind (depthAfter · rest) := by
  cases a with
  | opening => rfl
  | closing => cases depth <;> rfl
  | declaring => rfl

/-- A run that closes no more than it opened succeeds and keeps table and environments together. -/
theorem performAll_stands (stands : Stands below belowEnvs depth t envs)
    (within : depthAfter depth actions = some depth') :
    ∃ u envs', performAll actions (t, envs) = .ok (u, envs') ∧ t.Persists u ∧
      Stands below belowEnvs depth' u envs' := by
  induction actions generalizing t envs depth with
  | nil =>
    obtain rfl : depth = depth' := Option.some.inj within
    exact ⟨t, envs, rfl, .refl t, stands⟩
  | cons a rest ih =>
    rw [depthAfter_cons] at within
    obtain ⟨between, first, later⟩ := Option.bind_eq_some_iff.mp within
    obtain ⟨t1, envs1, done, persists, stands⟩ := perform_stands a stands first
    obtain ⟨u, envs', ran, persists', stands⟩ := ih stands later
    refine ⟨u, envs', ?_, persists.trans persists', stands⟩
    rw [performAll, foldlM_cons, done]
    exact ran

/-- What is done in a scope of its own changes no scope around it. -/
theorem performAll_nested (holds : HoldAll t t.scopes envs)
    (balanced : depthAfter 0 actions = some 0) :
    ∃ u, performAll (opening :: actions ++ [closing]) (t, envs) = .ok (u, envs) ∧
      u.scopes = t.scopes ∧ t.Persists u := by
  have opened := Stands.opened holds
  obtain ⟨u, envs', ran, persists, stands⟩ := performAll_stands opened balanced
  obtain ⟨top, scopes, length⟩ := stands.scopes
  obtain ⟨topEnvs, rfl, lengthEnvs⟩ := stands.environments
  obtain ⟨s, rfl⟩ := length_eq_one_iff.mp length
  obtain ⟨env, rfl⟩ := length_eq_one_iff.mp lengthEnvs
  obtain ⟨done, _⟩ := perform_closing stands.holds
  refine ⟨u.leave, ?_, by simp [leave, scopes], ?_⟩
  · change foldlM perform (t.openScope, [] :: envs) (actions ++ [closing]) = _
    rw [foldlM_append, ← performAll, ran]
    change (perform (u, env :: envs) closing >>= pure) = _
    rw [bind_pure]
    exact done
  · exact .scopes (.trans (.scopes (.refl t) _) persists) _

end ScopeAction

/-- The symbol table refines a stack of environments: after every run of actions that closes no more
scopes than it opened, the table answers as the stack does. Every lookup survives what is done in a
scope that is opened and closed again, and so does all that the entity found is known for. -/
theorem SymbolTable.performAll_refines {actions : List ScopeAction}
    (within : ScopeAction.depthAfter 0 actions = some depth) :
    ∃ t envs, ScopeAction.performAll actions (initial, [Environment.outermost]) = .ok (t, envs) ∧
      envs.length = depth + 1 ∧ t.Refines envs ∧
      ∀ nested, ScopeAction.depthAfter 0 nested = some 0 →
        ∃ u, ScopeAction.performAll (.opening :: nested ++ [.closing]) (t, envs) = .ok (u, envs) ∧
          u.Refines envs ∧ ∀ name, u.lookup? name = t.lookup? name ∧
            u.findLocal? name = t.findLocal? name ∧
            ∀ id, t.lookup? name = some id → u.entity id = t.entity id := by
  have start : ScopeAction.Stands [] [] 0 initial [Environment.outermost] :=
    ⟨initial_holdAll, ⟨_, (List.append_nil _).symm, rfl⟩, ⟨_, (List.append_nil _).symm, rfl⟩⟩
  obtain ⟨t, envs, ran, _, stands⟩ := ScopeAction.performAll_stands start within
  obtain ⟨top, scopes, length⟩ := stands.scopes
  have inScope : t.scopes ≠ [] := by
    rw [scopes, List.append_nil]
    exact List.ne_nil_of_length_eq_add_one length
  have refines := refines_of_holdAll stands.holds inScope
  refine ⟨t, envs, ran, ?_, refines, fun nested balanced => ?_⟩
  · obtain ⟨topEnvs, rfl, lengthEnvs⟩ := stands.environments
    simpa using lengthEnvs
  · obtain ⟨u, ran', same, persists⟩ := ScopeAction.performAll_nested stands.holds balanced
    have holds := stands.holds.persists persists
    rw [← same] at holds inScope
    have refines' := refines_of_holdAll holds inScope
    refine ⟨u, ran', refines', fun name => ⟨?_, ?_, fun id found => ?_⟩⟩
    · rw [refines'.lookup, refines.lookup]
    · rw [refines'.findLocal, refines.findLocal]
    · apply persists.entity
      rw [refines.lookup] at found
      exact stands.holds.contains found

/-- Variables of a program, one of them declared twice, and a method between them. The same name is
used again in a scope of its own. -/
def hidingActions : List ScopeAction :=
  [.opening, .declaring .var "a" .int (by decide), .declaring .method "f" .none (by decide),
    .declaring .var "a" .char (by decide), .opening, .declaring .var "a" .int (by decide)]

/-- The environments after that. -/
def hidingEnvironments : List Environment :=
  [[⟨⟨13⟩, .var, "a", .int⟩],
    [⟨⟨12⟩, .var, "a", .char⟩, ⟨⟨11⟩, .method, "f", .none⟩, ⟨⟨10⟩, .var, "a", .int⟩],
    Environment.outermost]

theorem SymbolTable.performAll_refines_hiding : ∃ t u,
    ScopeAction.performAll hidingActions (initial, [Environment.outermost]) =
      .ok (t, hidingEnvironments) ∧
    ScopeAction.performAll
        [.opening, .declaring .type "f" .int (by decide), .opening, .closing, .closing]
        (t, hidingEnvironments) = .ok (u, hidingEnvironments) ∧
    u.lookup? "a" = some ⟨13⟩ ∧ u.lookup? "f" = some ⟨11⟩ ∧ u.findLocal? "f" = none ∧
    (u.entity ⟨13⟩).adr = 0 ∧ (u.entity ⟨13⟩).level = 1 ∧
    (u.entity ⟨12⟩).adr = 1 ∧ (u.entity ⟨12⟩).level = 0 := by
  obtain ⟨t, envs, ran, _, _, nested⟩ :=
    performAll_refines (show ScopeAction.depthAfter 0 hidingActions = some 2 from rfl)
  have recorded : (ScopeAction.performAll hidingActions (initial, [Environment.outermost])).map
      (·.2) = .ok hidingEnvironments := by decide +kernel
  rw [ran] at recorded
  obtain rfl : envs = hidingEnvironments := Except.ok.inj recorded
  obtain ⟨u, ran', refines, _⟩ :=
    nested [.declaring .type "f" .int (by decide), .opening, .closing] rfl
  have inner := refines.slot (i := 0) rfl (k := 0) (b := ⟨⟨13⟩, .var, "a", .int⟩) rfl
  have outer := refines.slot (i := 1) rfl (k := 1) (b := ⟨⟨12⟩, .var, "a", .char⟩) rfl
  exact ⟨t, u, ran, ran', refines.lookup "a", refines.lookup "f", refines.findLocal "f",
    inner.1, inner.2, outer.1, outer.2⟩

end MicroJava

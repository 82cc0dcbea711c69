import MicroJava.Proofs.Translation.Outline

/-! # Symbol tables from method to method

Declarations and methods keep what a symbol table has. A method is known by the address at which its
code begins, and from there on nothing about it changes but the list of its variables. So the items
of a method call only methods that begin at or before it.
-/

namespace MicroJava

open Items

namespace SymbolTable

variable {t u : SymbolTable} {id other : EntityId} {kind : EntityKind} {name : String} {type : TypeId}

theorem kind_newEntity : (t.newEntity kind name type).kind = kind := by
  unfold newEntity
  split <;> rfl

theorem name_newEntity : (t.newEntity kind name type).name = name := by
  unfold newEntity
  split <;> rfl

/-- An entity that is not in a table counts as a constant. -/
theorem contains_of_kind (kind : (t.entity id).kind ≠ .con) : t.contains id = true := by
  cases inside : t.contains id with
  | true => rfl
  | false =>
    have outside : ¬ id.index < t.entities.size := of_decide_eq_false inside
    simp [entity, Array.getD, outside, default, instInhabitedEntity.default,
      instInhabitedEntityKind.default] at kind

theorem contains_of_method (method : (t.entity id).kind = .method) : t.contains id = true :=
  contains_of_kind (by simp [method])

/-- What is of another kind than the new entity was there before. -/
theorem entity_enter_of_kind {old : EntityKind}
    (isOld : ((t.enter kind name type).entity id).kind = old) (other : kind ≠ old)
    (named : old ≠ .con) : (t.enter kind name type).entity id = t.entity id := by
  rcases contains_enter.mp (contains_of_kind (isOld ▸ named)) with inside | rfl
  · exact entity_enter inside
  · rw [entity_enter_next, kind_newEntity] at isOld
    exact absurd isOld other

/-- Whether a change of entities keeps what they are, their names and their addresses. -/
def KeepsHead (f : Entity → Entity) : Prop :=
  ∀ e, (f e).kind = e.kind ∧ (f e).name = e.name ∧ (f e).adr = e.adr

/-- Whether a property of tables is preserved by every step between the head of a method and the
next one. -/
structure Robust (p : SymbolTable → Prop) : Prop extends Hereditary p where
  modify : ∀ t id f, KeepsHead f → p t → p (t.modify id f)
  scopes : ∀ (t : SymbolTable) scopes, p t → p { t with scopes }

/-- Whether every method of the program begins at an address of which `starts` holds. -/
def Placed (starts : Nat → Prop) (t : SymbolTable) : Prop :=
  ∀ id, t.IsMethod id → ∃ adr : Nat, starts adr ∧ (t.entity id).adr = adr

variable {starts more : Nat → Prop}

theorem Placed.mono (placed : t.Placed starts) (weaker : ∀ adr, starts adr → more adr) :
    t.Placed more := by
  intro id isMethod
  obtain ⟨adr, holds, same⟩ := placed id isMethod
  exact ⟨adr, weaker adr holds, same⟩

/-- A declaration that is no method changes nothing about methods. -/
theorem Placed.enter (placed : t.Placed starts) (other : kind ≠ .method) :
    (t.enter kind name type).Placed starts := by
  rintro id ⟨method, declared⟩
  have same := entity_enter_of_kind method other (by simp)
  rw [same] at method ⊢
  exact placed id ⟨method, declared⟩

theorem Placed.modify (placed : t.Placed starts) {f : Entity → Entity} (keeps : KeepsHead f) :
    (t.modify id f).Placed starts := by
  rintro other ⟨method, declared⟩
  rw [modify_keeps fun e => (keeps e).1] at method
  rw [modify_keeps fun e => (keeps e).2.2]
  exact placed other ⟨method, declared⟩

theorem robust_placed (starts : Nat → Prop) : Robust (Placed starts) where
  array _ _ placed id isMethod := placed id ⟨isMethod.kind, isMethod.declared⟩
  variable_ _ _ _ _ placed := placed.enter (by simp)
  modify _ _ _ keeps placed := placed.modify keeps
  scopes _ _ placed id isMethod := placed id ⟨isMethod.kind, isMethod.declared⟩

/-- A new method begins at the address that it is given. -/
theorem Placed.enterMethod (placed : t.Placed starts) (base : Nat) :
    (t.enterMethod name type base).Placed fun adr => starts adr ∨ adr = base := by
  rintro id ⟨method, declared⟩
  unfold SymbolTable.enterMethod at *
  have inside : (t.enter .method name type).contains id = true := by
    have := contains_of_method method
    rwa [contains_modify] at this
  by_cases same : id = t.next
  · subst same
    rw [entity_modify _ inside]
    exact ⟨base, .inr rfl, rfl⟩
  · rw [entity_modify_ne _ same] at method ⊢
    have old := (contains_enter.mp inside).resolve_right same
    rw [entity_enter old] at method ⊢
    obtain ⟨adr, holds, adr_⟩ := placed id ⟨method, declared⟩
    exact ⟨adr, .inl holds, adr_⟩

/-- Whether an entity is the method of a name that begins at an address. -/
structure Begins (name : String) (base : Nat) (id : EntityId) (t : SymbolTable) : Prop where
  kind : (t.entity id).kind = .method
  name : (t.entity id).name = name
  adr : (t.entity id).adr = base

variable {base : Nat}

theorem Begins.modify (begins : Begins name base id t) {f : Entity → Entity} (keeps : KeepsHead f) :
    Begins name base id (t.modify other f) where
  kind := (modify_keeps (fun e => (keeps e).1) other id).trans begins.kind
  name := (modify_keeps (fun e => (keeps e).2.1) other id).trans begins.name
  adr := (modify_keeps (fun e => (keeps e).2.2) other id).trans begins.adr

theorem robust_begins (name : String) (base : Nat) (id : EntityId) :
    Robust (Begins name base id) where
  array _ _ begins := ⟨begins.kind, begins.name, begins.adr⟩
  variable_ t varName type _ begins := by
    have same : (t.enter .var varName type).entity id = t.entity id :=
      entity_enter (contains_of_method begins.kind)
    exact ⟨same ▸ begins.kind, same ▸ begins.name, same ▸ begins.adr⟩
  modify _ _ _ keeps begins := begins.modify keeps
  scopes _ _ begins := ⟨begins.kind, begins.name, begins.adr⟩

theorem begins_enterMethod (t : SymbolTable) (name : String) (type : TypeId) (base : Nat) :
    Begins name base t.next (t.enterMethod name type base) := by
  have inside : (t.enter .method name type).contains t.next = true := contains_enter.mpr (.inr rfl)
  unfold enterMethod
  refine ⟨?_, ?_, ?_⟩
  · rw [entity_modify _ inside, entity_enter_next, kind_newEntity]
  · rw [entity_modify _ inside, entity_enter_next, name_newEntity]
  · rw [entity_modify _ inside]

theorem Persists.begins (persists : t.Persists u) (begins : Begins name base id t) :
    Begins name base id u := by
  have same := persists.entity id (contains_of_method begins.kind)
  exact ⟨same ▸ begins.kind, same ▸ begins.name, same ▸ begins.adr⟩

end SymbolTable

namespace Syntax

open SymbolTable

variable {t t' : SymbolTable} {limits : Limits} {p : SymbolTable → Prop} {base : Nat}
  {items : List Item} {starts : Nat → Prop} {m : Method}

theorem Parameters.Declare.preserves {method : EntityId} {ps : Option Parameters}
    (declares : Parameters.Declare method t ps t') (robust : Robust p) (holds : p t) : p t' := by
  refine declares.keeps robust.toHereditary (fun _ keeps => ?_) holds
  exact robust.modify _ _ _ fun e => ⟨(keeps e).1, (keeps e).2.1, (keeps e).2.2.1⟩

/-- The table in which the statements of a method are compiled that begins at an address. -/
inductive Method.Opens (t : SymbolTable) (base : Nat) (m : Method) : SymbolTable → Prop where
  | mk {type t₁ t₂ t₃} (result : ResultType t m.result type t₁) (fresh : t₁.Fresh m.name)
      (parameters : Parameters.Declare t₁.next (t₁.enterMethod m.name type base).openScope
        m.parameters t₂)
      (locals : VarDecl.DeclareAll
        (t₂.modify t₁.next fun e => { e with locals := t₂.declared }) m.locals t₃) :
      Opens t base m t₃

theorem Method.Opens.persists (opens : m.Opens t base t') : t.Persists t' := by
  obtain @⟨type, t1, t2, _, result, fresh, parameters, locals⟩ := opens
  have typed : t.Persists t1 := result.preserves (hereditary_persists t).array (.refl t)
  have head : t.Persists (t1.enterMethod m.name type base).openScope :=
    (typed.enter.modify _ typed.size).scopes _
  exact locals.preserves (hereditary_persists t)
    ((parameters.persists head typed.size).modify _ typed.size)

/-- Whatever no step of a method changes holds in its body if it holds after its head. -/
theorem Method.Opens.preserves (opens : m.Opens t base t') (robust : Robust p)
    (head : ∀ {type t1}, ResultType t m.result type t1 → p (t1.enterMethod m.name type base)) :
    p t' := by
  obtain ⟨result, fresh, parameters, locals⟩ := opens
  exact locals.preserves robust.toHereditary (robust.modify _ _ _ (fun _ => ⟨rfl, rfl, rfl⟩)
    (parameters.preserves robust (robust.scopes _ _ (head result))))

theorem ResultType.same {type : TypeId} {n : Option TypeName} (result : ResultType t n type t') :
    t'.next = t.next ∧ t'.scopes = t.scopes := by
  cases result with
  | void => exact ⟨rfl, rfl⟩
  | type resolved =>
    cases resolved with
    | plain => exact ⟨rfl, rfl⟩
    | array => exact ⟨rfl, rfl⟩

theorem Parameters.Declare.type {method : EntityId} {ps : Option Parameters}
    (declares : Parameters.Declare method t ps t') (inside : t.contains method = true) :
    (t'.entity method).type = (t.entity method).type := by
  cases declares with
  | none => rfl
  | @some ps last u declared =>
    have persists := declared.preserves (hereditary_persists t) (.refl t)
    have known : u.contains method = true := persists.contains inside
    have different : method ≠ last := by
      rintro rfl
      have late := declared.last_new
      have early : method.index < t.entities.size := of_decide_eq_true inside
      omega
    rw [← persists.entity method inside]
    split
    · simp [collectRest, known, entity_modify_ne _ different]
    · rw [entity_modify _ known]

/-- The table in which the statements of a method are compiled, and what they compile to. -/
theorem Method.Compiles.body (compiles : m.Compiles limits t base items t') :
    ∃ t1 t2 body, m.Opens t base t1 ∧
      Stmt.Sequence (Stmt.Compiles Compile.maxNesting) ⟨(t1.entity t.next).type, false⟩ t1 (base + 3)
        m.body body t2 ∧
      t1.varCount ≤ limits.locals ∧
      items = methodItems (t1.entity t.next).parameterCount t1.varCount body
        (t1.entity t.next).type ∧
      farCount base items = 0 ∧ Begins m.name base t.next t1 ∧
      t' = t2.leave.modify t.next fun e => { e with locals := t2.declared } := by
  obtain ⟨result, fresh, parameters, locals, capacity, main, body_, near⟩ := compiles
  rename_i type t1 t2 t3 body u
  have inside : (t1.enterMethod m.name type base).openScope.contains t1.next = true :=
    contains_of_method (begins_enterMethod ..).kind
  have head : ((t1.enterMethod m.name type base).openScope.entity t1.next).type = type := by
    rw [entity_openScope, SymbolTable.enterMethod, entity_modify _ (contains_enter.mpr (.inr rfl)),
      entity_enter_next]
    simp [newEntity]
  have begins : Begins m.name base t1.next
      (t2.modify t1.next fun e => { e with locals := t2.declared }) :=
    (parameters.preserves (robust_begins ..)
      ((robust_begins ..).scopes _ _ (begins_enterMethod ..))).modify fun _ => ⟨rfl, rfl, rfl⟩
  have persists := locals.preserves (hereditary_persists _) (.refl _)
  have type_ : (t3.entity t1.next).type = type := by
    have known : t2.contains t1.next = true := by
      rw [← contains_modify]
      exact contains_of_method begins.kind
    rw [persists.entity _ (contains_of_method begins.kind), entity_modify _ known,
      ← head, ← parameters.type inside]
  rw [← result.same.1]
  exact ⟨t3, u, body, ⟨result, fresh, parameters, locals⟩, body_, capacity, by rw [type_], near,
    persists.begins begins, rfl⟩

theorem Method.Compiles.persists (compiles : m.Compiles limits t base items t') :
    t.Persists t' := by
  obtain ⟨t1, t2, body, opens, sequence, _, _, _, _, rfl⟩ := compiles.body
  have widens := (sequence.contained (Stmt.Compiles.contained _)).widens
  exact ((opens.persists.trans widens.persists).scopes _).modify _ (Nat.le_refl _)

theorem Method.Compiles.preserves (compiles : m.Compiles limits t base items t') (robust : Robust p)
    (head : ∀ {type t1}, ResultType t m.result type t1 → p (t1.enterMethod m.name type base)) :
    p t' := by
  obtain ⟨t1, t2, body, opens, sequence, _, _, _, _, rfl⟩ := compiles.body
  have widens := (sequence.contained (Stmt.Compiles.contained _)).widens
  exact robust.modify _ _ _ (fun _ => ⟨rfl, rfl, rfl⟩)
    (robust.scopes _ _ (widens.preserves robust.array (opens.preserves robust head)))

/-- What is known about the items of a method from its beginning on. -/
structure MethodOutline (starts : Nat → Prop) (base : Nat) (items : List Item) : Prop where
  near : Items.farCount base items = 0
  shape : ∃ parameterCount varCount body type, items = methodItems parameterCount varCount body type ∧
    Items.Leads [] (Items.Boundary (base + 3) body) body ∧
    ∀ adr : Int, .call adr ∈ body → ∃ start : Nat, starts start ∧ adr = start

theorem MethodOutline.mono {starts more : Nat → Prop} (outline : MethodOutline starts base items)
    (weaker : ∀ adr, starts adr → more adr) : MethodOutline more base items := by
  obtain ⟨near, parameterCount, varCount, body, type, same, leads, calls⟩ := outline
  refine ⟨near, parameterCount, varCount, body, type, same, leads, fun adr called => ?_⟩
  obtain ⟨start, holds, begins⟩ := calls adr called
  exact ⟨start, weaker start holds, begins⟩

theorem Method.Compiles.outline (compiles : m.Compiles limits t base items t') (based : t.Based)
    (placed : t.Placed starts) :
    t.Persists t' ∧ t'.Placed (fun adr => starts adr ∨ adr = base) ∧
      (∃ id, Begins m.name base id t') ∧
      MethodOutline (fun adr => starts adr ∨ adr = base) base items := by
  have head {type t1} (result : ResultType t m.result type t1) :
      (t1.enterMethod m.name type base).Placed fun adr => starts adr ∨ adr = base :=
    (result.preserves (robust_placed starts).array placed).enterMethod base
  have begins : Begins m.name base t.next t' := compiles.preserves (robust_begins ..) fun result =>
    result.same.1 ▸ begins_enterMethod ..
  refine ⟨compiles.persists, compiles.preserves (robust_placed _) head, ⟨_, begins⟩, ?_⟩
  obtain ⟨t1, t2, body, opens, sequence, _, rfl, near, _, _⟩ := compiles.body
  have contained := sequence.contained (Stmt.Compiles.contained _)
  refine ⟨near, _, _, _, _, rfl, contained.leads, fun adr called => ?_⟩
  obtain ⟨id, isMethod, same⟩ := contained.calls (based.trans opens.persists) adr called
  obtain ⟨start, holds, begins⟩ := opens.preserves (robust_placed _) head id isMethod
  exact ⟨start, holds, same.symm.trans begins⟩

theorem Decl.Declares.persists {d : Decl} (declares : d.Declares limits t t') : t.Persists t' := by
  cases declares with
  | const resolved _ =>
    have keeps := resolved.preserves (hereditary_persists t).array (.refl t)
    exact keeps.enter.modify _ keeps.size
  | vars resolved names =>
    exact names.preserves (hereditary_persists t)
      (resolved.preserves (hereditary_persists t).array (.refl t))
  | classDecl _ fields _ =>
    have keeps := fields.preserves (hereditary_persists t)
      ((((Persists.refl t).addType _).enter).scopes _)
    exact (keeps.scopes _).setFields _ (Nat.le_refl _)

theorem Decl.Declares.placed {d : Decl} (declares : d.Declares limits t t')
    (placed : t.Placed starts) : t'.Placed starts := by
  have robust := robust_placed starts
  cases declares with
  | const resolved _ =>
    exact robust.modify _ _ _ (fun _ => ⟨rfl, rfl, rfl⟩)
      ((resolved.preserves robust.array placed).enter (by simp))
  | vars resolved names =>
    exact names.preserves robust.toHereditary (resolved.preserves robust.array placed)
  | classDecl _ fields _ =>
    have started : t.addClass.2.Placed starts := fun id isMethod => placed id ⟨isMethod.1, isMethod.2⟩
    have declared := fields.preserves robust.toHereditary
      (robust.scopes _ _ (started.enter (by simp)))
    exact fun id isMethod => declared id ⟨isMethod.1, isMethod.2⟩

theorem Decl.DeclareAll.preserves {ds : List Decl} (declares : Decl.DeclareAll limits t ds t')
    (step : ∀ t d t', Decl.Declares limits t d t' → p t → p t') (holds : p t) : p t' := by
  induction declares with
  | nil => exact holds
  | cons first _ ih => exact ih (step _ _ _ first holds)

/-- Before any method, no method of the program is known. -/
theorem Program.start_placed (p : Program) : p.start.Placed fun _ => False := by
  have initial : SymbolTable.initial.Placed fun _ => False := by
    rintro id ⟨method, declared⟩
    have inside := contains_of_method method
    simp only [contains, decide_eq_true_eq] at inside
    omega
  exact (robust_placed _).scopes _ _ (initial.enter (by simp))

theorem Program.start_based (p : Program) : p.start.Based :=
  ((Persists.refl _).enter).scopes _

/-- The `k`-th method of a program finds the methods before it at the addresses where their code
begins. -/
theorem Method.CompileAll.outline {ms : List Method} {segments : List (List Item)}
    (compiles : Method.CompileAll limits t base ms segments t') (based : t.Based)
    (placed : t.Placed starts) :
    t.Persists t' ∧ ms.length = segments.length ∧
    ∀ k m items, ms[k]? = some m → segments[k]? = some items →
      (∃ id, Begins m.name (base + size (segments.take k).flatten) id t') ∧
      MethodOutline
        (fun adr => starts adr ∨ ∃ j ≤ k, adr = base + size (segments.take j).flatten)
        (base + size (segments.take k).flatten) items := by
  induction compiles generalizing starts with
  | nil => exact ⟨.refl _, rfl, by simp⟩
  | @cons t base m items t1 rest segments t' first more ih =>
    obtain ⟨keeps, placed, ⟨id, begins⟩, outline⟩ := first.outline based placed
    obtain ⟨keeps', length, later⟩ := ih (based.trans keeps) placed
    refine ⟨keeps.trans keeps', by simp [length], fun k m' items' method segment => ?_⟩
    cases k with
    | zero =>
      cases method
      cases segment
      refine ⟨⟨id, by simpa using keeps'.begins begins⟩, ?_⟩
      simpa using outline
    | succ k =>
      obtain ⟨begins', outline'⟩ := later k m' items' (by simpa using method) (by simpa using segment)
      have address (j : Nat) : base + size ((items :: segments).take (j + 1)).flatten =
          base + size items + size (segments.take j).flatten := by
        simp [Nat.add_assoc]
      rw [address]
      refine ⟨begins', outline'.mono ?_⟩
      rintro adr ((old | rfl) | ⟨j, early, rfl⟩)
      · exact .inl old
      · exact .inr ⟨0, by omega, by simp⟩
      · exact .inr ⟨j + 1, by omega, (address j).symm⟩

end Syntax

end MicroJava

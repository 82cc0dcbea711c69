import MicroJava.Proofs.Verification.Basic
import MicroJava.Proofs.Verification.Types

/-! # Method bodies and the table at the end

The body of a method is compiled in a table that later declarations extend. What the final table says
about the method, about what the body can name and about the slots of variables agrees with what the
compiler knew when it compiled the body.
-/

namespace MicroJava

open SymbolTable List

variable {base : Nat} {m : Method} {outer : List Scope} {method : EntityId} {ps : Option Parameters}
  {items : List Item}

/-! ## Entities that change only behind their parameters -/

/-- Whether two entities are the same but for what they declare behind their parameters. -/
structure Entity.Agrees (e e' : Entity) : Prop where
  kind : e'.kind = e.kind
  name : e'.name = e.name
  type : e'.type = e.type
  value : e'.value = e.value
  adr : e'.adr = e.adr
  parameterCount : e'.parameterCount = e.parameterCount
  hasVarArgs : e'.hasVarArgs = e.hasVarArgs
  parameters : e'.parameters = e.parameters

theorem Entity.Agrees.refl (e : Entity) : e.Agrees e :=
  ⟨rfl, rfl, rfl, rfl, rfl, rfl, rfl, rfl⟩

theorem Entity.Agrees.trans {e e' e'' : Entity} (first : e.Agrees e') (second : e'.Agrees e'') :
    e.Agrees e'' where
  kind := second.kind.trans first.kind
  name := second.name.trans first.name
  type := second.type.trans first.type
  value := second.value.trans first.value
  adr := second.adr.trans first.adr
  parameterCount := second.parameterCount.trans first.parameterCount
  hasVarArgs := second.hasVarArgs.trans first.hasVarArgs
  parameters := second.parameters.trans first.parameters

namespace SymbolTable

variable {t u w : SymbolTable} {id other : EntityId} {limit : Nat}

/-- Whether what a table knows agrees with what another one knows. -/
structure Agrees (t u : SymbolTable) : Prop where
  contains : ∀ id, t.contains id = true → u.contains id = true
  entity : ∀ id, t.contains id = true → (t.entity id).Agrees (u.entity id)
  typeCount : t.types.size ≤ u.types.size
  info : ∀ a, t.types.contains a = true → u.types.info a = t.types.info a

theorem Persists.agrees (persists : t.Persists u) : t.Agrees u where
  contains _ := persists.contains
  entity id inside := by
    rw [persists.entity id inside]
    exact .refl _
  typeCount := persists.typeCount
  info := persists.info

theorem Agrees.contains_type (agrees : t.Agrees u) {a : TypeId} (inside : t.types.contains a = true) :
    u.types.contains a = true := by
  have size := agrees.typeCount
  simp only [TypeTable.contains, decide_eq_true_eq] at *
  omega

theorem Agrees.trans (first : t.Agrees u) (second : u.Agrees w) : t.Agrees w where
  contains id inside := second.contains id (first.contains id inside)
  entity id inside := (first.entity id inside).trans (second.entity id (first.contains id inside))
  typeCount := Nat.le_trans first.typeCount second.typeCount
  info a inside := (second.info a (first.contains_type inside)).trans (first.info a inside)

theorem Agrees.begins {name : String} (agrees : t.Agrees u) (begins : Begins name base id t) :
    Begins name base id u := by
  have same := agrees.entity id (contains_of_method begins.kind)
  exact ⟨same.kind.trans begins.kind, same.name.trans begins.name, same.adr.trans begins.adr⟩

theorem Agrees.keeps (agrees : t.Agrees u) : t.types.Keeps u.types := by
  intro a isReference
  have same := agrees.info a (TypeTable.contains_of_isReference isReference)
  simp only [TypeTable.kind, TypeTable.elemType, same, and_self]

private theorem agrees_modify {locals : List EntityId}
    (same : locals.take (t.entity id).parameterCount = (t.entity id).parameters) :
    t.Agrees (t.modify id fun e => { e with locals }) where
  contains other inside := by rw [contains_modify]; exact inside
  entity other inside := by
    by_cases isSame : other = id
    · subst isSame
      rw [entity_modify _ inside]
      exact ⟨rfl, rfl, rfl, rfl, rfl, rfl, rfl, same⟩
    · rw [entity_modify_ne _ isSame]
      exact .refl _
  typeCount := Nat.le_refl _
  info _ _ := rfl

/-! ## Methods that can be called -/

/-- Whether the parameters of a method are declared, the last one as an array if it collects
arguments. -/
structure Callable (t : SymbolTable) (id : EntityId) : Prop where
  count : (t.entity id).parameters.length = (t.entity id).parameterCount
  inside : ∀ parameter ∈ (t.entity id).parameters, t.contains parameter = true
  collects : (t.entity id).hasVarArgs = true → ∀ last ∈ (t.entity id).parameters.getLast?,
    t.types.IsData (t.entity last).type ∧ t.types.isArray (t.entity last).type = true

theorem Callable.agrees (callable : t.Callable id) (agrees : t.Agrees u)
    (inside : t.contains id = true) : u.Callable id := by
  have same := agrees.entity id inside
  refine ⟨?_, ?_, ?_⟩
  · rw [same.parameters, same.parameterCount]
    exact callable.count
  · rw [same.parameters]
    exact fun parameter member => agrees.contains _ (callable.inside parameter member)
  · rw [same.parameters, same.hasVarArgs]
    intro collects last isLast
    obtain ⟨isData, isArray⟩ := callable.collects collects last isLast
    have inside := callable.inside last (mem_of_getLast? isLast)
    rw [(agrees.entity last inside).type]
    exact ⟨agrees.keeps.isData isData, (agrees.keeps.isArray isArray).1⟩

/-- Whether all methods of the program can be called. -/
def Prepared (t : SymbolTable) : Prop := ∀ id, t.IsMethod id → t.Callable id

theorem Prepared.agrees (prepared : t.Prepared) (agrees : t.Agrees u)
    (known : ∀ id, u.contains id = true → t.contains id = true) : u.Prepared := by
  rintro id ⟨kind, declared⟩
  have inside := known id (contains_of_method kind)
  rw [(agrees.entity id inside).kind] at kind
  exact (prepared id ⟨kind, declared⟩).agrees agrees inside

private theorem robust_methods (known : EntityId → Prop) :
    Robust fun t => ∀ id, t.IsMethod id → known id where
  array _ _ methods id isMethod := methods id ⟨isMethod.kind, isMethod.declared⟩
  variable_ t name type _ methods := by
    rintro id ⟨method, declared⟩
    rw [entity_enter_of_kind method (by simp) (by simp)] at method
    exact methods id ⟨method, declared⟩
  modify t id f keeps methods := by
    rintro other ⟨method, declared⟩
    rw [modify_keeps fun e => (keeps e).1] at method
    exact methods other ⟨method, declared⟩
  scopes _ _ methods id isMethod := methods id ⟨isMethod.kind, isMethod.declared⟩

/-- Whether the current scope lies over some others and holds declarations of the program only. -/
structure Over (outer : List Scope) (t : SymbolTable) : Prop where
  size : initial.entities.size ≤ t.entities.size
  current : ∃ s, t.scopes = s :: outer ∧ ∀ id ∈ s.entries, initial.entities.size ≤ id.index

theorem Over.enter (above : t.Over outer) (kind : EntityKind) (name : String) (type : TypeId) :
    (t.enter kind name type).Over outer := by
  obtain ⟨size, s, scopes, late⟩ := above
  refine ⟨by simp only [SymbolTable.enter, Array.size_push]; omega, s.insert t.next kind,
    by simp [SymbolTable.enter, scopes], fun id member => ?_⟩
  rcases mem_cons.mp member with rfl | member
  · exact size
  · exact late id member

theorem Over.modify (above : t.Over outer) (f : Entity → Entity) : (t.modify id f).Over outer :=
  ⟨by simpa [SymbolTable.modify] using above.size, above.current⟩

private theorem hereditary_over (outer : List Scope) : Hereditary (Over outer) where
  array _ _ above := ⟨above.size, above.current⟩
  variable_ _ name type _ above := above.enter .var name type

theorem Over.openScope (above : t.Over outer) : t.openScope.Over t.scopes :=
  ⟨above.size, {}, rfl, by simp⟩

end SymbolTable

namespace Syntax

open SymbolTable

variable {t t' : SymbolTable} {limits : Limits} {type : TypeId} {limit : Nat}

theorem Parameter.DeclareAll.declared {ps : List Parameter} {last : EntityId}
    (declares : Parameter.DeclareAll t ps last t') (inScope : t.scopes ≠ []) :
    ∃ ids, t'.declared = t.declared ++ (ids ++ [last]) ∧ ids.length + 1 = ps.length := by
  induction declares with
  | @one t p type t1 resolved fresh =>
    refine ⟨[], ?_, rfl⟩
    have same : t1.scopes = t.scopes := (ResultType.same (.type resolved)).2
    rw [declared_enter (same ▸ inScope)]
    simp [SymbolTable.declared, same]
  | @cons t p type t1 rest last t' resolved fresh _ ih =>
    have same : t1.scopes = t.scopes := (ResultType.same (.type resolved)).2
    obtain ⟨ids, declared, length⟩ := ih (by simpa [enter, same] using inScope)
    refine ⟨t1.next :: ids, ?_, by simp [length]⟩
    rw [declared, declared_enter (same ▸ inScope)]
    simp [SymbolTable.declared, same]

section

variable (declares : Parameters.Declare method t ps t')

include declares

/-- Parameters are counted, and the last one is an array if it collects arguments. -/
theorem Parameters.Declare.counts (wellTyped : t.WellTyped limit)
    (inside : t.contains method = true) (inScope : t.scopes ≠ []) (empty : t.declared = [])
    (uncounted : (t.entity method).parameterCount = 0 ∧ (t.entity method).hasVarArgs = false) :
    (t'.entity method).parameterCount = t'.declared.length ∧
      ((t'.entity method).hasVarArgs = true → ∀ last ∈ t'.declared.getLast?,
        t'.types.IsData (t'.entity last).type ∧ t'.types.isArray (t'.entity last).type = true) := by
  cases declares with
  | none => simp [empty, uncounted]
  | @some ps last u declared =>
    obtain ⟨ids, all, length⟩ := declared.declared inScope
    obtain ⟨declaredTyped, isVar⟩ := declared.wellTyped wellTyped
    have persists := declared.preserves (hereditary_persists t) (.refl t)
    have known : u.contains method = true := persists.contains inside
    have different : last ≠ method := by
      rintro rfl
      have late := declared.last_new
      have early : last.index < t.entities.size := of_decide_eq_true inside
      omega
    rw [empty, nil_append] at all
    by_cases variadic : ps.variadic = true
    · rw [if_pos variadic]
      have changed : ((collectRest u method last).modify method fun e =>
          { e with parameterCount := ps.all.length }).entity method =
          { u.entity method with hasVarArgs := true, parameterCount := ps.all.length } := by
        simp [collectRest, known, entity_modify_ne _ different.symm]
      have collected : (((collectRest u method last).modify method fun e =>
          { e with parameterCount := ps.all.length }).entity last).type =
          (u.addArray (u.entity last).type).1 := by
        simp [collectRest, isVar.inside, entity_modify_ne _ different]
      refine ⟨?_, fun _ other isLast => ?_⟩
      · rw [changed]
        change ps.all.length = u.declared.length
        simp [all, ← length]
      · obtain rfl : last = other := by
          change other ∈ u.declared.getLast? at isLast
          simpa [all] using isLast
        rw [collected]
        exact ⟨(declaredTyped.isData_var isVar).addArray, (TypeTable.isArray_addArray _ _).1⟩
    · rw [if_neg variadic]
      have changed := entity_modify (fun e => { e with parameterCount := ps.all.length }) known
      refine ⟨?_, fun collects => ?_⟩
      · rw [changed]
        change ps.all.length = u.declared.length
        simp [all, ← length]
      · rw [changed] at collects
        change (u.entity method).hasVarArgs = true at collects
        rw [persists.entity method inside, uncounted.2] at collects
        cases collects

theorem Parameters.Declare.onlyVars (vars : t.OnlyVars)
    (later : initial.entities.size ≤ method.index) : t'.OnlyVars := by
  refine declares.keeps hereditary_onlyVars (fun new keeps vars' => ?_) vars
  have size := vars.based.size
  exact vars'.modify (by rcases new with rfl | new <;> omega) fun e => (keeps e).1

theorem Parameters.Declare.over (above : t.Over outer) : t'.Over outer :=
  declares.keeps (hereditary_over outer) (fun _ _ above => above.modify _) above

end

/-- Declarations of variables stand behind what is declared. -/
theorem hereditary_declared (front : List EntityId) :
    Hereditary fun t => t.scopes ≠ [] ∧ front <+: t.declared where
  array _ _ declares := declares
  variable_ t name type _ declares := by
    refine ⟨by simpa [enter] using declares.1, ?_⟩
    rw [declared_enter declares.1]
    exact declares.2.trans (prefix_append _ _)

/-- A method can be called once its parameters are declared. -/
theorem Parameters.Declare.callable {name : String} (declares : Parameters.Declare method t ps t')
    (wellTyped : t.WellTyped limit) (orderly : t.Orderly) (begins : Begins name base method t)
    (inScope : t.scopes ≠ []) (empty : t.declared = [])
    (uncounted : (t.entity method).parameterCount = 0 ∧ (t.entity method).hasVarArgs = false) :
    (t'.modify method fun e => { e with locals := t'.declared }).Callable method ∧
    ((t'.modify method fun e => { e with locals := t'.declared }).entity method).parameters =
      t'.declared := by
  obtain ⟨count, collects⟩ := declares.counts wellTyped (contains_of_method begins.kind) inScope
    empty uncounted
  have known : t'.contains method = true :=
    contains_of_method (declares.preserves (robust_begins ..) begins).kind
  have changed := entity_modify (fun e => { e with locals := t'.declared }) known
  have parameters : ((t'.modify method fun e => { e with locals := t'.declared }).entity
      method).parameters = t'.declared := by
    rw [changed, Entity.parameters, count, take_length]
  have type (id : EntityId) : ((t'.modify method fun e => { e with locals := t'.declared }).entity
      id).type = (t'.entity id).type := modify_keeps (by simp) method id
  refine ⟨⟨?_, fun id member => ?_, fun hasVarArgs last isLast => ?_⟩, parameters⟩
  · rw [parameters, changed, count]
  · rw [parameters] at member
    rw [contains_modify]
    cases scopes : t'.scopes with
    | nil => simp [declared, scopes] at member
    | cons s outer =>
      exact (declares.orderly orderly).inside (scopes ▸ mem_cons_self)
        (by simpa [declared, scopes, Scope.declarations] using member)
  · rw [parameters] at isLast
    rw [changed] at hasVarArgs
    rw [type]
    exact collects hasVarArgs last isLast

section

variable (opens : m.Opens t base t')

include opens

/-- A method can be called in its own body, and its parameters are declared first. -/
theorem Method.Opens.callable (wellTyped : t.WellTyped limit) (orderly : t.Orderly) :
    t'.Callable t.next ∧
      t'.declared.take (t'.entity t.next).parameterCount = (t'.entity t.next).parameters := by
  obtain @⟨type, t1, t2, _, result, fresh, parameters, locals⟩ := opens
  obtain ⟨next, scopes⟩ := result.same
  rw [← next]
  obtain ⟨resultTyped, isResult⟩ := result.wellTyped wellTyped
  have head : (t1.enterMethod m.name type base).openScope.WellTyped limit :=
    (WellTyped.enterMethod resultTyped isResult m.name base).scopes _
  have headOrderly : (t1.enterMethod m.name type base).openScope.Orderly :=
    ((result.preserves hereditary_orderly.array orderly).enterMethod fresh base).openScope
  have entity : (t1.enterMethod m.name type base).openScope.entity t1.next =
      { t1.newEntity .method m.name type with adr := base } := by
    rw [entity_openScope, enterMethod, entity_modify _ (contains_enter.mpr (.inr rfl)),
      entity_enter_next]
  have begins : Begins m.name base t1.next (t1.enterMethod m.name type base).openScope :=
    (robust_begins ..).scopes _ _ (begins_enterMethod ..)
  obtain ⟨callable, all⟩ := parameters.callable head headOrderly begins (by simp [openScope]) rfl
    (by simp [entity, newEntity])
  have begins2 : Begins m.name base t1.next
      (t2.modify t1.next fun e => { e with locals := t2.declared }) :=
    (parameters.preserves (robust_begins ..) begins).modify fun _ => ⟨rfl, rfl, rfl⟩
  have inside := contains_of_method begins2.kind
  have persists := locals.preserves (hereditary_persists _) (.refl _)
  have above : t2.Over (t1.enterMethod m.name type base).scopes :=
    parameters.over ⟨head.based.size, {}, rfl, by simp⟩
  obtain ⟨_, more, declared⟩ := locals.preserves (hereditary_declared t2.declared)
    ⟨by obtain ⟨s, scopes, _⟩ := above.current; simp [SymbolTable.modify, scopes], prefix_rfl⟩
  refine ⟨callable.agrees persists.agrees inside, ?_⟩
  rw [persists.entity _ inside, all, ← callable.count, all, ← declared, take_left]

/-- All that a method declares are variables. -/
theorem Method.Opens.onlyVars (wellTyped : t.WellTyped limit) : t'.OnlyVars := by
  obtain @⟨type, t1, t2, _, result, fresh, parameters, locals⟩ := opens
  obtain ⟨resultTyped, isResult⟩ := result.wellTyped wellTyped
  have head := WellTyped.enterMethod resultTyped isResult m.name base
  have declared := parameters.onlyVars (onlyVars_openScope head.based) resultTyped.based.size
  exact locals.preserves hereditary_onlyVars (declared.modify resultTyped.based.size fun _ => rfl)

/-- The parameters of a method are among its variables. -/
theorem Method.Opens.parameterCount_le (wellTyped : t.WellTyped limit) (orderly : t.Orderly) :
    (t'.entity t.next).parameterCount ≤ t'.varCount := by
  obtain ⟨callable, parameters⟩ := opens.callable wellTyped orderly
  have orderly' := (opens.callees orderly wellTyped.based).1
  rw [← (opens.onlyVars wellTyped).length orderly', ← callable.count, ← parameters, length_take]
  omega

/-- The scope of a method lies over those of the program. -/
theorem Method.Opens.over {s : Scope} (above : t.Over outer) (open_ : t.scopes = s :: outer) :
    t'.Over (s.insert t.next .method :: outer) := by
  obtain @⟨type, t1, t2, _, result, fresh, parameters, locals⟩ := opens
  obtain ⟨next, scopes⟩ := result.same
  have over1 : t1.Over outer := result.preserves (hereditary_over outer).array above
  have head : (t1.enterMethod m.name type base).scopes = s.insert t.next .method :: outer := by
    simp [SymbolTable.enterMethod, SymbolTable.modify, enter, scopes, open_, next]
  have entered : (t1.enterMethod m.name type base).Over outer :=
    (over1.enter .method m.name type).modify _
  have over2 := parameters.over entered.openScope
  rw [← head]
  exact locals.preserves (hereditary_over _) (over2.modify _)

/-- Besides those known before, a method knows itself. -/
theorem Method.Opens.isMethod : ∀ id, t'.IsMethod id → t.IsMethod id ∨ id = t.next := by
  have robust := robust_methods fun id => t.IsMethod id ∨ id = t.next
  refine opens.preserves robust fun {type t1} result => ?_
  have known : ∀ id, t1.IsMethod id → t.IsMethod id ∨ id = t.next :=
    result.preserves robust.array fun id isMethod => .inl isMethod
  rintro id ⟨method, declared⟩
  unfold enterMethod at method
  by_cases same : id = t1.next
  · exact .inr (same.trans result.same.1)
  · rw [entity_modify_ne _ same] at method
    have inside := (contains_enter.mp (contains_of_method method)).resolve_right same
    rw [entity_enter inside] at method
    exact known id ⟨method, declared⟩

end

/-! ## Between methods -/

end Syntax

namespace SymbolTable

variable {t u : SymbolTable}

/-- What holds of the table between the declarations of a program. -/
structure Global (limit : Nat) (t : SymbolTable) : Prop where
  wellTyped : t.WellTyped limit
  orderly : t.Orderly
  prepared : t.Prepared
  placed : t.Placed fun _ => True
  program : t.contains initial.next = true ∧ (t.entity initial.next).parameterCount = 0
  scopes : ∃ outer, t.Over [outer] ∧ ∀ id ∈ outer.entries, (t.entity id).kind ≠ .var

/-- Whether a table has the same variables of the program as another one, and maybe more methods. -/
def Continues (t u : SymbolTable) : Prop :=
  t.Persists u ∧ ∃ s s' outer, t.scopes = [s, outer] ∧ u.scopes = [s', outer] ∧
    s'.varCount = s.varCount ∧ s.declarations <+: s'.declarations

/-- A method that is declared next is not the program. -/
theorem Global.next_ne {limit : Nat} (global : t.Global limit) : t.next ≠ initial.next := by
  intro same
  have inside := global.program.1
  rw [← same, contains_next] at inside
  cases inside

theorem Global.continues {limit : Nat} (global : t.Global limit) : t.Continues t := by
  obtain ⟨outer, above, _⟩ := global.scopes
  obtain ⟨s, scopes, _⟩ := above.current
  exact ⟨.refl t, s, s, outer, scopes, scopes, rfl, prefix_rfl⟩

theorem Continues.trans {w : SymbolTable} (first : t.Continues u) (second : u.Continues w) :
    t.Continues w := by
  obtain ⟨persists, s, s1, outer, scopes, scopes1, count, declares⟩ := first
  obtain ⟨persists', s1', s', outer', scopes1', scopes', count', declares'⟩ := second
  obtain ⟨rfl, rfl⟩ : s1' = s1 ∧ outer' = outer := by simpa [scopes1] using scopes1'.symm
  exact ⟨persists.trans persists', s, s', _, scopes, scopes', count'.trans count,
    declares.trans declares'⟩

end SymbolTable

namespace Syntax

open SymbolTable

variable {t t' : SymbolTable} {limits : Limits} {limit : Nat} {segments : List (List Item)}

/-- The table of a method body agrees with the one behind the method. -/
theorem Method.Opens.agrees {t1 t2 : SymbolTable} (opens : m.Opens t base t1)
    (wellTyped : t.WellTyped limit) (orderly : t.Orderly) (widens : t1.Widens t2) :
    t2.Agrees (t2.leave.modify t.next fun e => { e with locals := t2.declared }) := by
  have parameters := (opens.callable wellTyped orderly).2
  refine ((Persists.refl t2).scopes _).agrees.trans (agrees_modify ?_)
  change t2.declared.take (t2.entity t.next).parameterCount = (t2.entity t.next).parameters
  rw [widens.entity, ← parameters]
  simp [declared, widens.scopes]

/-- All methods that the body of a method knows can be called, itself included. -/
theorem Method.Opens.prepared (opens : m.Opens t base t') (global : t.Global limit) :
    t'.Prepared := by
  intro id isMethod
  rcases opens.isMethod id isMethod with old | rfl
  · exact (global.prepared id old).agrees opens.persists.agrees (contains_of_method old.kind)
  · exact (opens.callable global.wellTyped global.orderly).1

/-- A method leaves the table as it was, but for itself. -/
theorem Method.Compiles.global (compiles : m.Compiles limits t base items t')
    (global : t.Global limit) : t'.Global limit ∧ t.Continues t' := by
  have persists := compiles.persists
  have orderly := (compiles.callees global.orderly global.wellTyped.based).1
  obtain ⟨_, placed, _, _⟩ := compiles.outline global.wellTyped.based global.placed
  obtain ⟨t1, t2, body, opens, sequence, _, _, _, _, rfl⟩ := compiles.body
  obtain ⟨outer, above, noVars⟩ := global.scopes
  obtain ⟨s, scopes, late⟩ := above.current
  obtain ⟨_, inner, scopes1, _⟩ := opens.over above scopes
  have widens := (sequence.contained (Stmt.Compiles.contained _)).widens
  have typed : t2.WellTyped limit := widens.preserves (fun _ elem typed => typed.array elem)
    (opens.wellTyped global.wellTyped)
  have scopes' : t2.leave.scopes = [s.insert t.next .method, outer] := by
    simp [leave, widens.scopes, scopes1]
  have agrees := opens.agrees global.wellTyped global.orderly widens
  refine ⟨⟨?_, orderly, ?_, placed.mono fun _ _ => trivial, ?_, ?_⟩, persists, ?_⟩
  · exact (typed.scopes _).modify global.wellTyped.based.size (fun sound => sound)
      fun isVar => ⟨isVar, rfl⟩
  · refine (opens.prepared global).agrees (widens.persists.agrees.trans agrees) fun id inside => ?_
    rwa [contains_modify, contains_leave, widens.contains] at inside
  · obtain ⟨inside, none⟩ := global.program
    exact ⟨persists.contains inside, by rw [persists.entity _ inside]; exact none⟩
  · refine ⟨outer, ⟨Nat.le_trans above.size persists.size, _, scopes', fun id member => ?_⟩,
      fun id member => ?_⟩
    · rcases mem_cons.mp member with rfl | member
      · exact above.size
      · exact late id member
    · have inside : t.contains id = true := global.orderly.inside (by simp [scopes]) member
      rw [persists.entity id inside]
      exact noVars id member
  · exact ⟨s, _, outer, scopes, scopes', by simp [Scope.insert],
      by simp [Scope.declarations, Scope.insert]⟩

theorem Method.CompileAll.global {ms : List Method}
    (compiles : Method.CompileAll limits t base ms segments t') (global : t.Global limit) :
    t'.Global limit ∧ t.Continues t' := by
  induction compiles with
  | nil => exact ⟨global, global.continues⟩
  | cons first _ ih =>
    obtain ⟨global1, continues⟩ := first.global global
    obtain ⟨global', continues'⟩ := ih global1
    exact ⟨global', continues.trans continues'⟩

/-- A declaration changes the scope of the program only. -/
theorem Decl.Declares.over {d : Decl} (declares : d.Declares limits t t') (above : t.Over outer) :
    t'.Over outer := by
  have hereditary := hereditary_over outer
  cases declares with
  | const resolved fresh =>
    exact ((resolved.preserves hereditary.array above).enter _ _ _).modify _
  | vars resolved names =>
    exact names.preserves hereditary (resolved.preserves hereditary.array above)
  | @classDecl name fields u fresh declared _ =>
    have added : t.addClass.2.Over outer := ⟨above.size, above.current⟩
    have entered := added.enter .type name t.addClass.1
    obtain ⟨size, inner, scopes, _⟩ := declared.preserves (hereditary_over _) entered.openScope
    exact ⟨size, by simpa [setFields, leave, scopes] using entered.current⟩

theorem Program.start_wellTyped (p : Program) (limit : Nat) : p.start.WellTyped limit :=
  ((initial_wellTyped limit).enter (by simp [newEntity, Entity.Sound])).scopes _

/-- Behind the global declarations of a program. -/
theorem Program.global {p : Program} {globals : SymbolTable} (fresh : initial.Fresh p.name)
    (decls : Decl.DeclareAll limits p.start p.decls globals) : globals.Global limits.fields := by
  have start : p.start.WellTyped limits.fields ∧ p.start.Orderly :=
    ⟨p.start_wellTyped _, p.start_orderly fresh⟩
  have persists : p.start.Persists globals := decls.preserves
    (fun _ _ _ declares persists => persists.trans declares.persists) (.refl _)
  have placed : globals.Placed fun _ => False := decls.preserves
    (fun _ _ _ declares placed => declares.placed placed) p.start_placed
  obtain ⟨typed, orderly⟩ := decls.preserves
    (p := fun t => t.WellTyped limits.fields ∧ t.Orderly)
    (fun _ _ _ declares sound => ⟨declares.wellTyped sound.1 sound.2, (declares.hides sound.2).1⟩)
    start
  have above : globals.Over p.start.scopes.tail := decls.preserves
    (fun _ _ _ declares above => declares.over above) ⟨p.start_based.size, {}, rfl, by simp⟩
  have program : p.start.contains initial.next = true := contains_enter.mpr (.inr rfl)
  refine ⟨typed, orderly, fun id isMethod => ?_, placed.mono fun _ _ => trivial,
    ⟨persists.contains program, ?_⟩, _, above, fun id member => ?_⟩
  · obtain ⟨_, impossible, _⟩ := placed id isMethod
    exact impossible.elim
  · rw [persists.entity _ program]
    simp [Program.start, newEntity]
  · have inside : p.start.contains id = true :=
      (p.start_orderly fresh).inside (mem_of_mem_tail mem_cons_self) member
    rw [persists.entity id inside]
    change ((initial.enter .program p.name .none).entity id).kind ≠ .var
    have predeclared : ∀ id ∈ [len, ord, chr, ⟨3⟩, ⟨2⟩, ⟨1⟩],
        initial.contains id = true ∧ (initial.entity id).kind ≠ .var := by decide
    rcases mem_cons.mp member with rfl | member
    · rw [entity_enter_next, kind_newEntity]
      decide
    · obtain ⟨inside, notVar⟩ := predeclared id member
      rwa [entity_enter inside]

theorem Program.Compiles.global {p : Program} {globals final : SymbolTable}
    (compiles : p.Compiles limits globals final segments) : globals.Global limits.fields :=
  Program.global compiles.fresh compiles.decls

end Syntax

/-! ## Frames -/

namespace SymbolTable

variable {t u : SymbolTable} {limit : Nat}

/-- The table at the end of a program whose scope is still open. -/
def finish (t : SymbolTable) : SymbolTable :=
  t.leave.modify initial.next fun e => { e with locals := t.declared }

theorem locals_finish (inside : t.contains initial.next = true) :
    (t.finish.entity initial.next).locals = t.declared := by
  have changed := entity_modify (t := t.leave) (fun e => { e with locals := t.declared }) inside
  rw [finish, changed]

private theorem entity_finish {id : EntityId} (different : id ≠ initial.next) :
    t.finish.entity id = t.entity id := by
  rw [finish, entity_modify_ne _ different, entity_leave]

theorem Global.finish (global : t.Global limit) :
    t.Agrees t.finish ∧ t.finish.WellTyped limit ∧ t.finish.Prepared ∧
      t.finish.Placed fun _ => True := by
  have agrees : t.Agrees t.finish := by
    refine ((Persists.refl t).scopes _).agrees.trans (agrees_modify ?_)
    change t.declared.take (t.entity initial.next).parameterCount = (t.entity initial.next).parameters
    rw [Entity.parameters, global.program.2, take_zero, take_zero]
  refine ⟨agrees, ?_, global.prepared.agrees agrees fun id inside => ?_, ?_⟩
  · exact (global.wellTyped.scopes _).modify (Nat.le_refl _) (fun sound => sound)
      fun isVar => ⟨isVar, rfl⟩
  · rwa [SymbolTable.finish, contains_modify, contains_leave] at inside
  · exact ((robust_placed _).scopes _ _ global.placed).modify fun _ => ⟨rfl, rfl, rfl⟩

/-- The variables of a scope whose declarations come first in what its owner declares. -/
theorem slotTypes_of_scope {s : Scope} {level : Nat} {owner id : EntityId}
    (orderly : s.Orderly t level) (agrees : t.Agrees u)
    (declares : s.declarations <+: (u.entity owner).locals) (member : id ∈ s.entries)
    (isVar : (t.entity id).kind = .var) :
    ∃ slot : Nat, (t.entity id).adr = slot ∧ (t.entity id).level = level ∧
      (u.slotTypes owner)[slot]? = some (t.entity id).type := by
  obtain ⟨slot, found, adr, sameLevel⟩ := orderly.exists_slot member isVar
  have same : s.slots u = s.slots t :=
    Scope.slots_congr fun id member => (agrees.entity id (orderly.inside id member)).kind
  have front : s.slots t <+: (u.entity owner).locals.filter fun id => (u.entity id).kind == .var :=
    same ▸ declares.filter _
  refine ⟨slot, adr, sameLevel, ?_⟩
  obtain ⟨inside, value⟩ := List.getElem?_eq_some_iff.mp found
  rw [slotTypes, getElem?_map, prefix_iff_getElem?.mp front slot inside, value,
    Option.map_some, (agrees.entity id (orderly.inside id member)).type]

/-- All variables of a scope that declares just what its owner declares. -/
theorem length_slotTypes {s : Scope} {level : Nat} {owner : EntityId} (orderly : s.Orderly t level)
    (agrees : t.Agrees u) (declares : (u.entity owner).locals = s.declarations) :
    (u.slotTypes owner).length = s.varCount := by
  have same : s.slots u = s.slots t :=
    Scope.slots_congr fun id member => (agrees.entity id (orderly.inside id member)).kind
  rw [slotTypes, length_map, declares, orderly.count, ← same, Scope.slots]

end SymbolTable

namespace Frame

open SymbolTable

/-- Whether the table of a frame is sound and its variables can be addressed. -/
structure Sound (v : Frame) : Prop where
  wellTyped : v.table.WellTyped Limits.supported.fields
  prepared : v.table.Prepared
  placed : v.table.Placed fun _ => True
  slots : v.slots.length ≤ Limits.supported.locals
  globals : v.globals.length ≤ Limits.supported.globals

/-- Whether a frame says the same as a table about all that a method body can name. -/
structure Describes (v : Frame) (t : SymbolTable) : Prop where
  based : t.Based
  agrees : t.Agrees v.table
  inside : ∀ name id, t.lookup? name = some id → t.contains id = true
  field : ∀ a, ∀ id ∈ t.types.fields a, t.contains id = true
  slot : ∀ name id, t.lookup? name = some id → (t.entity id).kind = .var →
    t.IsVar id ∧ ∃ slot : Nat, (t.entity id).adr = slot ∧
      (if (t.entity id).level = 0 then v.globals else v.slots)[slot]? = some (t.entity id).type

end Frame

namespace Syntax

open SymbolTable

variable {t t' final : SymbolTable} {limits : Limits} {limit : Nat}

/-- The frame of a method in the final table describes what its body is compiled in. -/
theorem Method.Compiles.describes (compiles : m.Compiles limits t base items t')
    (global : t.Global limit) (continues : t'.Continues final) (finished : final.Global limit) :
    ∃ t1 t2 body, m.Opens t base t1 ∧
      Stmt.Sequence (Stmt.Compiles Compile.maxNesting)
        ⟨(⟨final.finish, t.next⟩ : Frame).returns, false⟩ t1 (base + 3) m.body body t2 ∧
      items = methodItems (final.finish.entity t.next).parameterCount
        (⟨final.finish, t.next⟩ : Frame).slots.length body (⟨final.finish, t.next⟩ : Frame).returns ∧
      Items.farCount base items = 0 ∧ Begins m.name base t.next final.finish ∧
      (final.finish.entity t.next).parameterCount ≤ (⟨final.finish, t.next⟩ : Frame).slots.length ∧
      (⟨final.finish, t.next⟩ : Frame).slots.length ≤ limits.locals ∧
      (⟨final.finish, t.next⟩ : Frame).Describes t2 := by
  obtain ⟨t1, t2, body, opens, sequence, capacity, same, near, begins, rfl⟩ := compiles.body
  obtain ⟨outer, above, noVars⟩ := global.scopes
  obtain ⟨s, scopes, late⟩ := above.current
  obtain ⟨_, inner, scopes1, inLate⟩ := opens.over above scopes
  obtain ⟨persists, s1, s', outer', sameScopes, scopes', _, declares⟩ := continues
  have widens := (sequence.contained (Stmt.Compiles.contained _)).widens
  have scopes2 : t2.scopes = [inner, s.insert t.next .method, outer] := widens.scopes.trans scopes1
  obtain ⟨rfl, rfl⟩ : s.insert t.next .method = s1 ∧ outer = outer' := by
    simpa [leave, SymbolTable.modify, scopes2] using sameScopes
  have agrees : t2.Agrees final.finish :=
    (opens.agrees global.wellTyped global.orderly widens).trans
      (persists.agrees.trans finished.finish.1)
  have based2 : t2.Based := widens.based (global.wellTyped.based.trans opens.persists)
  have orderly2 : t2.Orderly := widens.preserves hereditary_orderly.array
    (opens.callees global.orderly global.wellTyped.based).1
  have isMethod : t2.contains t.next = true := by
    rw [widens.contains]
    exact contains_of_method begins.kind
  -- What the method and the program declare according to the final table.
  have ownLocals : (final.finish.entity t.next).locals = inner.declarations := by
    have changed := entity_modify (t := t2.leave) (fun e => { e with locals := t2.declared }) isMethod
    rw [entity_finish global.next_ne, persists.entity _ (by rw [contains_modify]; exact isMethod),
      changed]
    simp [declared, scopes2]
  have programLocals : (final.finish.entity initial.next).locals = s'.declarations := by
    rw [locals_finish finished.program.1]
    simp [declared, scopes']
  have inInner := orderly2 inner [s.insert t.next .method, outer] (scopes2 ▸ suffix_rfl)
  have inProgram := orderly2 (s.insert t.next .method) [outer] (scopes2 ▸ suffix_cons _ _)
  have slotCount : (final.finish.slotTypes t.next).length = t1.varCount := by
    rw [length_slotTypes inInner agrees ownLocals]
    simp [varCount, scopes1]
  have entity := agrees.entity t.next isMethod
  rw [widens.entity] at entity
  have returns : (⟨final.finish, t.next⟩ : Frame).returns = (t1.entity t.next).type := entity.type
  refine ⟨t1, t2, body, opens, ?_, ?_, near, ?_, ?_, ?_, ?_⟩
  · rw [returns]
    exact sequence
  · rw [same, returns, entity.parameterCount, Frame.slots, slotCount]
  · exact agrees.begins (widens.persists.begins begins)
  · rw [Frame.slots, slotCount, entity.parameterCount]
    exact opens.parameterCount_le global.wellTyped global.orderly
  · rw [Frame.slots, slotCount]
    exact capacity
  · have visible {name : String} {id : EntityId} (found : t2.lookup? name = some id) :
        id ∈ inner.entries ∨ id ∈ (s.insert t.next .method).entries ∨ id ∈ outer.entries := by
      obtain ⟨scope, open_, member⟩ := mem_of_lookup found
      rw [scopes2] at open_
      simp only [mem_cons, not_mem_nil, or_false] at open_
      rcases open_ with rfl | rfl | rfl
      · exact .inl member
      · exact .inr (.inl member)
      · exact .inr (.inr member)
    refine ⟨based2, agrees, ?_, ?_, ?_⟩
    · intro name id found
      obtain ⟨scope, open_, member⟩ := mem_of_lookup found
      exact orderly2.inside open_ member
    · intro a id member
      have typed : t2.WellTyped limit := widens.preserves (fun _ elem typed => typed.array elem)
        (opens.wellTyped global.wellTyped)
      obtain ⟨i, found⟩ := mem_iff_getElem?.mp member
      exact (typed.field a i id found).1.inside
    · intro name id found isVar
      have inside : t2.contains id = true := contains_of_kind (by simp [isVar])
      rcases visible found with member | member | member
      · have own : inner.declarations <+: (final.finish.entity t.next).locals := by simp [ownLocals]
        obtain ⟨slot, adr, level, known⟩ := slotTypes_of_scope inInner agrees own member isVar
        refine ⟨⟨inLate id member, inside, isVar⟩, slot, adr, ?_⟩
        rw [level, if_neg (by simp)]
        exact known
      · obtain ⟨slot, adr, level, known⟩ := slotTypes_of_scope inProgram agrees
          (by rw [programLocals]; exact declares) member isVar
        refine ⟨⟨?_, inside, isVar⟩, slot, adr, ?_⟩
        · rcases mem_cons.mp member with rfl | member
          · exact above.size
          · exact late id member
        · rw [level, if_pos (by simp)]
          exact known
      · have known : t.contains id = true := global.orderly.inside (by simp [scopes]) member
        rw [widens.entity, opens.persists.entity id known] at isVar
        exact absurd isVar (noVars id member)

end Syntax

end MicroJava

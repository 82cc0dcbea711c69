import MicroJava.Proofs.Translation.Scopes
import MicroJava.Proofs.Translation.Uses

/-! # Which names mean methods

The names of the open scopes, and how each of them is called if it means a method. Declarations put
names in front of those that they hide, so what a name in a method body means can be read off the
syntax tree.
-/

namespace MicroJava

open Items List

/-- The names of a scope, the latest first, and how they are called if they mean methods. -/
def Scope.callees (t : SymbolTable) (s : Scope) : List (String × Option Callee) :=
  s.entries.map fun id => ((t.entity id).name, t.callee? id)

namespace SymbolTable

variable {t u v : SymbolTable} {id : EntityId} {kind : EntityKind} {name : String} {type : TypeId}
  {names more : List String}

/-- The names of all open scopes, the innermost scope first. -/
def callees (t : SymbolTable) : List (List (String × Option Callee)) := t.scopes.map (Scope.callees t)

theorem calleeOf?_eq_callees (t : SymbolTable) (name : String) :
    t.calleeOf? name = (t.callees.findSome? (lookup name)).join := by
  have scope (ids : List EntityId) : (ids.map fun id => ((t.entity id).name, t.callee? id)).lookup
      name = (t.search ids name).map t.callee? := by
    induction ids with
    | nil => rfl
    | cons id ids ih =>
      by_cases same : (t.entity id).name = name
      · simp [search, same]
      · have other := beq_eq_false_iff_ne.mpr (Ne.symm same)
        simpa [search, same, lookup_cons, other] using ih
  unfold calleeOf? lookup? callees
  induction t.scopes with
  | nil => rfl
  | cons s scopes ih =>
    have first : (s.callees t).lookup name = (t.search s.entries name).map t.callee? := scope _
    cases found : t.search s.entries name with
    | none =>
      rw [found] at first
      simpa [findSome?_cons, found, first] using ih
    | some id =>
      rw [found] at first
      simp [found, first]

/-- The names of a scope differ. -/
theorem Orderly.distinct_callees (orderly : t.Orderly) :
    ∀ scope ∈ t.callees, (scope.map Prod.fst).Nodup := by
  intro scope member
  obtain ⟨s, open_, rfl⟩ := mem_map.mp member
  obtain ⟨front, outer, scopes⟩ := append_of_mem open_
  have distinct := (orderly s outer ⟨front, scopes.symm⟩).distinct
  simpa [Scope.callees, Function.comp_def] using distinct

/-! ## How declarations change the names -/

private theorem callees_congr (scopes : u.scopes = t.scopes)
    (same : ∀ s ∈ t.scopes, ∀ id ∈ s.entries,
      (u.entity id).name = (t.entity id).name ∧ u.callee? id = t.callee? id) :
    u.callees = t.callees := by
  unfold callees
  rw [scopes]
  refine map_congr_left fun s open_ => map_congr_left fun id member => ?_
  obtain ⟨name, callee⟩ := same s open_ id member
  rw [name, callee]

private theorem callees_openScope : t.openScope.callees = [] :: t.callees := rfl

private theorem callees_leave : t.leave.callees = t.callees.tail := map_tail

private theorem callees_modify (f : Entity → Entity) (keeps : KeepsHead f) :
    (t.modify id f).callees = t.callees := by
  refine callees_congr rfl fun _ _ other _ => ⟨modify_keeps (fun e => (keeps e).2.1) id other, ?_⟩
  simp only [callee?, modify_keeps fun e => (keeps e).1, modify_keeps fun e => (keeps e).2.2]

private theorem callees_insert (orderly : t.Orderly) (persists : t.Persists u)
    (scopes : u.scopes = t.scopes.modifyHead (·.insert t.next kind))
    (named : (u.entity t.next).name = name) :
    u.callees = t.callees.modifyHead ((name, u.callee? t.next) :: ·) := by
  have old : ∀ s ∈ t.scopes, s.callees u = s.callees t := by
    refine fun s open_ => map_congr_left fun id member => ?_
    simp only [callee?, persists.entity id (orderly.inside open_ member)]
  unfold callees
  rw [scopes]
  cases isOpen : t.scopes with
  | nil => rfl
  | cons s outer =>
    rw [isOpen] at old
    have first : (s.insert t.next kind).callees u = (name, u.callee? t.next) :: s.callees t := by
      rw [← old s mem_cons_self]
      simp only [Scope.callees, Scope.insert, map_cons, named]
    rw [modifyHead_cons, map_cons, first,
      map_congr_left fun s member => old s (mem_cons_of_mem _ member)]
    rfl

/-- Whether declarations put names that mean no methods in front of those of the current scope. -/
def Hides (t : SymbolTable) (names : List String) (u : SymbolTable) : Prop :=
  u.Orderly ∧ u.callees = t.callees.modifyHead (names.reverse.map (·, none) ++ ·)

theorem Hides.refl (orderly : t.Orderly) : t.Hides [] t :=
  ⟨orderly, by cases t.callees <;> rfl⟩

theorem Hides.trans (first : t.Hides names u) (second : u.Hides more v) :
    t.Hides (names ++ more) v := by
  refine ⟨second.1, ?_⟩
  rw [second.2, first.2]
  cases t.callees with
  | nil => rfl
  | cons s scopes => simp

theorem Hides.callees_eq (hides : t.Hides [] u) : u.callees = t.callees := by
  rw [hides.2]
  cases t.callees <;> rfl

theorem Hides.types (hides : t.Hides names u) (types : TypeTable) :
    t.Hides names { u with types } := ⟨hides.1.types types, hides.2⟩

theorem Hides.modify {f : Entity → Entity} (hides : t.Hides names u) (keeps : KeepsPlace f) :
    t.Hides names (u.modify id f) := by
  have same : (u.modify id f).callees = u.callees :=
    callees_modify f fun e => ⟨(keeps e).1, (keeps e).2.1, (keeps e).2.2.1⟩
  obtain ⟨kind, name, slot⟩ := keeps (u.entity id)
  exact ⟨hides.1.modify ⟨kind, name, fun _ => slot⟩, same.trans hides.2⟩

theorem Orderly.hides (orderly : t.Orderly) (fresh : t.Fresh name) (type : TypeId)
    (notMethod : kind ≠ .method) : t.Hides [name] (t.enter kind name type) := by
  have none : (t.enter kind name type).callee? t.next = none := by
    simp [callee?, kind_newEntity, notMethod]
  have named : ((t.enter kind name type).entity t.next).name = name := by simp [name_newEntity]
  refine ⟨orderly.enter fresh, ?_⟩
  rw [callees_insert orderly (Persists.refl t).enter rfl named, none]
  rfl

private theorem collects_hides : Collects fun t names u => t.Orderly → t.Hides names u where
  refl _ := .refl
  trans first second orderly := (first orderly).trans (second (first orderly).1)
  array _ first orderly := (first orderly).types _
  variable_ _ _ type fresh orderly := orderly.hides fresh type (by decide)

theorem Widens.callees (widens : t.Widens u) : u.callees = t.callees := by
  refine callees_congr widens.scopes fun s _ id _ => ?_
  constructor <;> simp only [callee?, widens.entity]

/-- A method is visible from its head on. -/
theorem callees_enterMethod (orderly : t.Orderly) (based : t.Based) (base : Nat) :
    (t.enterMethod name type base).callees =
      t.callees.modifyHead ((name, some (.method base)) :: ·) := by
  have persists : t.Persists (t.enterMethod name type base) :=
    (Persists.refl t).enter.modify _ (Nat.le_refl _)
  have entity : (t.enterMethod name type base).entity t.next =
      { t.newEntity .method name type with adr := base } := by
    rw [enterMethod, entity_modify _ (contains_enter.mpr (.inr rfl)), entity_enter_next]
  have callee : (t.enterMethod name type base).callee? t.next = some (.method base) := by
    have late : 10 ≤ t.next.index := based.size
    have own : ¬ (t.next = chr ∨ t.next = ord ∨ t.next = len) := by
      rintro (same | same | same) <;> simp [same, chr, ord, len] at late
    simp [callee?, entity, kind_newEntity, own]
  have named : ((t.enterMethod name type base).entity t.next).name = name := by
    simp [entity, name_newEntity]
  rw [callees_insert orderly persists rfl named, callee]

end SymbolTable

namespace Syntax

open SymbolTable

variable {t t' : SymbolTable} {limits : Limits} {type : TypeId} {base : Nat}
  {segments : List (List Item)} {m : Method} {ms : List Method}

theorem Decl.Declares.hides {d : Decl} (declares : d.Declares limits t t') (orderly : t.Orderly) :
    t.Hides d.names t' := by
  cases declares with
  | const resolved fresh =>
    have typed := resolved.collects collects_hides orderly
    exact (typed.trans (typed.1.hides fresh _ (by decide))).modify fun _ => ⟨rfl, rfl, rfl, rfl⟩
  | vars resolved names =>
    have typed := resolved.collects collects_hides orderly
    exact typed.trans (names.collects collects_hides typed.1)
  | @classDecl name fields u fresh declared _ =>
    have entered : t.Hides [name] (t.addClass.2.enter .type name t.addClass.1) :=
      Orderly.hides (t := t.addClass.2) (orderly.types _) fresh _ (by decide)
    obtain ⟨orderly, callees⟩ := declared.collects collects_hides entered.1.openScope
    refine ⟨orderly.leave.types _, ?_⟩
    -- The names of the fields are gone with the scope of the class.
    have outer : u.leave.callees = (t.addClass.2.enter .type name t.addClass.1).callees := by
      rw [callees_leave, callees, callees_openScope]
      rfl
    exact outer.trans entered.2

/-! ## Methods -/

/-- What names mean in the statements of a method. -/
theorem Method.Opens.callees (opens : m.Opens t base t') (orderly : t.Orderly) (based : t.Based) :
    t'.Orderly ∧ t'.callees = m.names.reverse.map (·, none) ::
      t.callees.modifyHead ((m.name, some (.method base)) :: ·) := by
  obtain @⟨type, t1, t2, _, result, fresh, parameters, locals⟩ := opens
  have typed := result.collects collects_hides orderly
  have based1 : t1.Based := result.preserves (hereditary_persists _).array based
  have entered : (t1.enterMethod m.name type base).Orderly := typed.1.enterMethod fresh base
  have head : (t1.enterMethod m.name type base).callees = _ :=
    callees_enterMethod typed.1 based1 base
  have declared : (t1.enterMethod m.name type base).openScope.Hides
      (m.parameters.elim [] Parameters.names)
      (t2.modify t1.next fun e => { e with locals := t2.declared }) :=
    (parameters.collects collects_hides (fun _ keeps first orderly => (first orderly).modify keeps)
      entered.openScope).modify fun _ => ⟨rfl, rfl, rfl, rfl⟩
  obtain ⟨orderly', callees'⟩ :=
    declared.trans (locals.collects collects_hides declared.1)
  refine ⟨orderly', ?_⟩
  rw [callees', callees_openScope, head, typed.callees_eq, modifyHead_cons, append_nil]
  rfl

/-- A method is compiled in the table that it opens. -/
theorem Method.Compiles.opens {items : List Item} (compiles : m.Compiles limits t base items t') :
    ∃ u u' body, m.Opens t base u ∧ Accounts u m.uses body u' ∧
      (∃ parameterCount varCount type, items = methodItems parameterCount varCount body type) ∧
      farCount base items = 0 ∧
      ∃ id, t' = u'.leave.modify id fun e => { e with locals := u'.declared } := by
  obtain ⟨result, fresh, parameters, locals, capacity, main, body_, near⟩ := compiles
  exact ⟨_, _, _, ⟨result, fresh, parameters, locals⟩, body_.accounts (Stmt.Compiles.accounts _),
    ⟨_, _, _, rfl⟩, near, _, rfl⟩

/-- A method leaves its name behind. -/
theorem Method.Compiles.callees {items : List Item} (compiles : m.Compiles limits t base items t')
    (orderly : t.Orderly) (based : t.Based) :
    t'.Orderly ∧ t'.callees = t.callees.modifyHead ((m.name, some (.method base)) :: ·) := by
  obtain ⟨u, u', _, opens, accounts, _, _, id, rfl⟩ := compiles.opens
  obtain ⟨orderly, callees⟩ := opens.callees orderly based
  have orderly' : u'.leave.Orderly :=
    (accounts.widens.preserves hereditary_orderly.array orderly).leave
  refine ⟨orderly'.modify ⟨rfl, rfl, fun _ => ⟨rfl, rfl⟩⟩, ?_⟩
  refine (callees_modify _ ?_).trans ?_
  · exact fun _ => ⟨rfl, rfl, rfl⟩
  · rw [callees_leave, accounts.widens.callees, callees]
    rfl

/-- The names of methods that are compiled one after the other, the last one first. -/
def Method.callees : (base : Nat) → List Method → List (List Item) → List (String × Option Callee)
  | base, m :: rest, items :: segments =>
    Method.callees (base + Items.size items) rest segments ++ [(m.name, some (.method base))]
  | _, _, _ => []

theorem Method.map_fst_callees (length : segments.length = ms.length) :
    (Method.callees base ms segments).map Prod.fst = (ms.map (·.name)).reverse := by
  induction ms generalizing base segments with
  | nil => simp [Method.callees]
  | cons m ms ih =>
    cases segments with
    | nil => simp at length
    | cons items segments =>
      have rest := @ih (base + size items) segments (by simpa using length)
      simp [Method.callees, rest]

theorem Method.CompileAll.callees (compiles : Method.CompileAll limits t base ms segments t')
    (orderly : t.Orderly) (based : t.Based) :
    t'.Orderly ∧ t'.callees = t.callees.modifyHead (Method.callees base ms segments ++ ·) := by
  induction compiles with
  | nil => exact Hides.refl orderly
  | @cons t base m items t1 rest segments t' first more ih =>
    obtain ⟨orderly1, callees1⟩ := first.callees orderly based
    obtain ⟨orderly', callees'⟩ := ih orderly1 (based.trans first.persists)
    refine ⟨orderly', ?_⟩
    rw [callees', callees1]
    cases t.callees <;> simp [Method.callees]

theorem Method.CompileAll.persists (compiles : Method.CompileAll limits t base ms segments t') :
    t.Persists t' := by
  induction compiles with
  | nil => exact .refl _
  | cons first _ ih => exact first.persists.trans ih

theorem Method.CompileAll.length (compiles : Method.CompileAll limits t base ms segments t') :
    segments.length = ms.length := by
  induction compiles with
  | nil => rfl
  | cons _ _ ih => simp [ih]

/-- Methods up to one of them and those behind it. -/
theorem Method.CompileAll.split {before after : List Method}
    (compiles : Method.CompileAll limits t base (before ++ m :: after) segments t') :
    ∃ front items back t1 t2, segments = front ++ items :: back ∧
      Method.CompileAll limits t base before front t1 ∧
      m.Compiles limits t1 (base + size front.flatten) items t2 ∧
      Method.CompileAll limits t2 (base + size front.flatten + size items) after back
        t' := by
  induction before generalizing t base segments with
  | nil =>
    obtain _ | ⟨first, more⟩ := compiles
    exact ⟨[], _, _, _, _, rfl, .nil, first, more⟩
  | cons other before ih =>
    obtain _ | ⟨first, more⟩ := compiles
    obtain ⟨front, items, back, t1, t2, rfl, earlier, compiles, later⟩ := ih more
    refine ⟨_ :: front, items, back, t1, t2, rfl, .cons first earlier, ?_, ?_⟩
    · simpa [Nat.add_assoc] using compiles
    · simpa [Nat.add_assoc] using later

theorem Program.Compiles.split {p : Program} {globals final : SymbolTable} {before : List Method}
    (compiles : p.Compiles limits globals final segments) (inside : before ++ [m] <+: p.methods) :
    ∃ front items back after t1 t2, segments = front ++ items :: back ∧
      Method.CompileAll limits globals 0 before front t1 ∧
      m.Compiles limits t1 (size front.flatten) items t2 ∧
      Method.CompileAll limits t2 (size front.flatten + size items) after back final := by
  obtain ⟨after, methods⟩ := inside
  have all := compiles.methods
  rw [← methods, append_assoc, singleton_append] at all
  obtain ⟨front, items, back, t1, t2, same, earlier, compiled, later⟩ := all.split
  rw [Nat.zero_add] at compiled later
  exact ⟨front, items, back, after, t1, t2, same, earlier, compiled, later⟩

theorem lookup_hidden (names : List String) (name : String) :
    (names.map fun other => (other, (none : Option Callee))).lookup name =
      if name ∈ names then some none else none := by
  induction names with
  | nil => rfl
  | cons other names ih =>
    by_cases same : name = other
    · simp [same]
    · simp [lookup_cons, beq_eq_false_iff_ne.mpr same, same, ih]

/-- The method that a name means, with the address where it begins. -/
theorem Method.lookup_callees (length : segments.length = ms.length) (name : String) :
    (Method.callees base ms segments).lookup name = none ∧ (∀ m ∈ ms, m.name ≠ name) ∨
    ∃ j m, ms[j]? = some m ∧ m.name = name ∧ (Method.callees base ms segments).lookup name =
      some (some (.method (base + size (segments.take j).flatten : Nat))) := by
  induction ms generalizing base segments with
  | nil => exact .inl ⟨by simp [Method.callees], by simp⟩
  | cons m ms ih =>
    cases segments with
    | nil => simp at length
    | cons items segments =>
      have rest := @ih (base + size items) segments (by simpa using length)
      simp only [Method.callees, lookup_append]
      rcases rest with ⟨none, others⟩ | ⟨j, callee, found, same, isCallee⟩
      · by_cases isFirst : name = m.name
        · refine .inr ⟨0, m, rfl, isFirst.symm, ?_⟩
          rw [none]
          simp [isFirst]
        · have other := beq_eq_false_iff_ne.mpr isFirst
          refine .inl ⟨by simp [none, lookup_cons, other], fun other member => ?_⟩
          rcases mem_cons.mp member with rfl | member
          · exact Ne.symm isFirst
          · exact others other member
      · refine .inr ⟨j + 1, callee, found, same, ?_⟩
        rw [isCallee]
        simp [Nat.add_assoc]

/-! ## Programs -/

/-- The names that every program can use, behind its own name. -/
theorem Program.start_callees (p : Program) : p.start.callees =
    [[], (p.name, none) :: predeclaredMethods.reverse.map (·, some .inline) ++
      ["null", "char", "int"].map (·, none)] := by
  have named : ((initial.enter .program p.name .none).entity initial.next).name = p.name := by
    simp [name_newEntity]
  have callee : (initial.enter .program p.name .none).callee? initial.next = none := by
    simp [callee?, kind_newEntity]
  have first : initial.callees = [predeclaredMethods.reverse.map (·, some .inline) ++
      ["null", "char", "int"].map (·, none)] := by decide
  rw [Program.start, callees_openScope,
    callees_insert initial_orderly (Persists.refl initial).enter rfl named, callee, first]
  rfl

/-- What a name means that a program does not declare. -/
theorem lookup_predeclared {p : Program} (fresh : SymbolTable.initial.Fresh p.name) (name : String) :
    (((p.name, none) :: predeclaredMethods.reverse.map (·, some Callee.inline) ++
      ["null", "char", "int"].map (·, none)).lookup name).join =
    if name ∈ predeclaredMethods then some .inline else none := by
  have absent : p.name ∉ predeclaredMethods := by
    intro member
    have := fresh.2
    simp only [predeclaredMethods, mem_cons, not_mem_nil, or_false] at member
    rcases member with same | same | same <;> rw [same] at this <;> revert this <;> decide
  by_cases isProgram : name = p.name
  · subst isProgram
    simp [absent]
  · have other := beq_eq_false_iff_ne.mpr isProgram
    simp only [cons_append, lookup_cons, other]
    by_cases isChr : name = "chr"
    · subst isChr; decide
    by_cases isOrd : name = "ord"
    · subst isOrd; decide
    by_cases isLen : name = "len"
    · subst isLen; decide
    have none : (predeclaredMethods.reverse.map (·, some Callee.inline)).lookup name = none := by
      simp [predeclaredMethods, lookup_cons, beq_eq_false_iff_ne.mpr isChr,
        beq_eq_false_iff_ne.mpr isOrd, beq_eq_false_iff_ne.mpr isLen]
    have absent : name ∉ predeclaredMethods := by simp [predeclaredMethods, isChr, isOrd, isLen]
    rw [lookup_append, none, lookup_hidden, if_neg absent, Option.none_or]
    split <;> rfl

/-- What names mean after some methods of a program: those methods, before the names that the program
declares otherwise, before the predeclared ones. -/
theorem Program.callees_methods {p : Program} {before : List Method} {globals t1 : SymbolTable}
    {front : List (List Item)} (fresh : SymbolTable.initial.Fresh p.name)
    (decls : Decl.DeclareAll limits p.start p.decls globals)
    (methods : Method.CompileAll limits globals 0 before front t1) :
    t1.Orderly ∧ t1.Based ∧ ∃ outermost,
      t1.callees = [Method.callees 0 before front ++
        (p.decls.flatMap Decl.names).reverse.map (·, none), outermost] ∧
      ∀ name, (outermost.lookup name).join =
        if name ∈ predeclaredMethods then some .inline else none := by
  have hides := decls.collects collects_hides (·.hides) (Program.start_orderly fresh)
  have based : globals.Based := decls.preserves
    (fun _ _ _ declares based => based.trans declares.persists) p.start_based
  obtain ⟨orderly1, callees1⟩ := methods.callees hides.1 based
  refine ⟨orderly1, based.trans methods.persists, _, ?_, lookup_predeclared fresh⟩
  rw [callees1, hides.2, p.start_callees]
  simp

/-- What a name in the body of a method means: a method of the program, with the address where it
begins, or a predeclared method that nothing hides, or no method. -/
theorem Program.means_method {p : Program} {before : List Method} {globals t1 u : SymbolTable}
    {front : List (List Item)} (fresh : SymbolTable.initial.Fresh p.name)
    (decls : Decl.DeclareAll limits p.start p.decls globals)
    (methods : Method.CompileAll limits globals 0 before front t1)
    (opens : m.Opens t1 (size front.flatten) u) (name : String) :
    (meansOwn before m name = true ∧ ∃ j callee, (before ++ [m])[j]? = some callee ∧
      callee.name = name ∧
      u.calleeOf? name = some (.method (size (front.take j).flatten : Nat))) ∨
    (meansOwn before m name = false ∧
      u.calleeOf? name = if p.meansMethod before m name then some .inline else none) := by
  obtain ⟨orderly1, based1, outermost, callees1, predeclared⟩ :=
    Program.callees_methods fresh decls methods
  obtain ⟨_, callees⟩ := opens.callees orderly1 based1
  rw [callees1] at callees
  rw [calleeOf?_eq_callees, callees]
  simp only [modifyHead_cons, findSome?_cons, findSome?_nil, lookup_hidden, mem_reverse]
  by_cases isLocal : name ∈ m.names
  · exact .inr (by simp [isLocal, meansOwn, meansMethod])
  by_cases isSelf : name = m.name
  · subst isSelf
    refine .inl ⟨by simp [meansOwn, isLocal], before.length, m, by simp, rfl, ?_⟩
    rw [← methods.length, take_length]
    simp [isLocal]
  have other := beq_eq_false_iff_ne.mpr isSelf
  simp only [isLocal, if_false, lookup_cons, other, lookup_append, lookup_hidden, mem_reverse]
  rcases @Method.lookup_callees 0 front before methods.length name with
    ⟨none, others⟩ | ⟨j, callee, found, same, isCallee⟩
  · right
    have notOwn : meansOwn before m name = false := by
      simp only [meansOwn, Bool.and_eq_false_imp, any_eq_false, mem_append, mem_singleton]
      rintro _ other (member | rfl)
      · simpa using others other member
      · simpa using Ne.symm isSelf
    refine ⟨notOwn, ?_⟩
    by_cases declared : name ∈ p.decls.flatMap Decl.names
    · simp [none, meansMethod, notOwn, declared]
    · have means : p.meansMethod before m name = decide (name ∈ predeclaredMethods) := by
        simp [meansMethod, notOwn, isLocal, declared]
      rw [means]
      simp only [none, declared, if_false, decide_eq_true_eq, ← predeclared name]
      cases outermost.lookup name <;> rfl
  · left
    obtain ⟨early, rfl⟩ := List.getElem?_eq_some_iff.mp found
    refine ⟨?_, j, before[j], by simp [getElem?_append_left early], same, by simp [isCallee]⟩
    simp only [meansOwn, Bool.and_eq_true, any_eq_true]
    exact ⟨by simp [isLocal], before[j], by simp, by simp [same]⟩

end Syntax

end MicroJava

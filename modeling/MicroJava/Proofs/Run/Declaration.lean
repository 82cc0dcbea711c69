import MicroJava.Compilation
import MicroJava.Proofs.Run.Statement
import MicroJava.Proofs.Translation.Declaration

/-! # Compiling declarations

Every action for a declaration succeeds in every valid state in which a scope is open, and leaves
the scopes around the current one alone. If nothing was reported, the lexemes it consumed are those
of a declaration that leads from the symbol table before to the one after.
-/

namespace MicroJava

open Syntax Compiler SymbolTable

variable {type : TypeId} {id : EntityId} {f : Entity → Entity}

/-! ## Changes of the symbol table -/

namespace SymbolTable

variable {t : SymbolTable}

private theorem mem_modify {e : Entity} (member : e ∈ (t.modify id f).entities.toList) :
    e ∈ t.entities.toList ∨ t.contains id = true ∧ e = f (t.entity id) := by
  obtain ⟨i, inside, rfl⟩ := List.getElem_of_mem member
  simp only [modify, Array.length_toList, Array.size_modify] at inside
  simp only [modify, Array.getElem_toList, Array.getElem_modify]
  split
  · next same =>
    right
    subst same
    exact ⟨by simpa [contains] using inside, by simp [entity, Array.getD, inside]⟩
  · left
    simp

/-- Changing an entity keeps a table valid if the changed entity refers to what exists. -/
theorem Valid.modify (valid : t.Valid) (id : EntityId)
    (type : t.contains id = true → t.types.contains (f (t.entity id)).type = true)
    (locals : t.contains id = true → ∀ other ∈ (f (t.entity id)).locals, t.contains other = true) :
    (t.modify id f).Valid := by
  have size : (t.modify id f).entities.size = t.entities.size := by simp [SymbolTable.modify]
  refine ⟨?_, valid.types, ?_, ?_, valid.elem, ?_, ?_⟩
  · rw [size]
    exact valid.entities
  · intro e member
    rcases mem_modify member with member | ⟨inside, rfl⟩
    · exact valid.type e member
    · change _ < t.types.size
      simpa [TypeTable.contains] using type inside
  · intro e member other isLocal
    rw [size]
    rcases mem_modify member with member | ⟨inside, rfl⟩
    · exact valid.locals e member other isLocal
    · simpa [contains] using locals inside other isLocal
  · intro info member other isField
    rw [size]
    exact valid.fields info member other isField
  · intro scope member other entered
    rw [size]
    exact valid.scopes scope member other entered

theorem Valid.contains_local (valid : t.Valid) {id other : EntityId} (inside : t.contains id = true)
    (isLocal : other ∈ (t.entity id).locals) : t.contains other = true := by
  simpa [contains] using valid.locals _ (entity_mem inside) other isLocal

/-- Changing what refers to nothing keeps a table valid. -/
theorem Valid.modify_plain (valid : t.Valid) (id : EntityId) (type : ∀ e, (f e).type = e.type)
    (locals : ∀ e, (f e).locals = e.locals) : (t.modify id f).Valid := by
  refine valid.modify id (fun inside => ?_) (fun inside other isLocal => ?_)
  · rw [type]
    exact valid.contains_type inside
  · rw [locals] at isLocal
    exact valid.contains_local inside isLocal

/-- Adding an entity without declarations keeps a table valid. -/
theorem Valid.push (valid : t.Valid) {e : Entity} {scopes : List Scope}
    (type : t.types.contains e.type = true) (noLocals : e.locals = [])
    (inside : ∀ scope ∈ scopes, ∀ id ∈ scope.entries, id.index < t.entities.size + 1) :
    Valid ⟨t.types, t.entities.push e, scopes⟩ := by
  refine ⟨?_, valid.types, ?_, ?_, valid.elem, ?_, ?_⟩
  · have := valid.entities
    simp only [Array.size_push]
    omega
  · intro other member
    simp only [Array.toList_push, List.mem_append, List.mem_singleton] at member
    rcases member with member | rfl
    · exact valid.type other member
    · simpa [TypeTable.contains] using type
  · intro other member id isLocal
    simp only [Array.toList_push, List.mem_append, List.mem_singleton] at member
    simp only [Array.size_push]
    rcases member with member | rfl
    · exact Nat.lt_succ_of_lt (valid.locals other member id isLocal)
    · simp [noLocals] at isLocal
  · intro info member id isField
    simp only [Array.size_push]
    exact Nat.lt_succ_of_lt (valid.fields info member id isField)
  · simpa only [Array.size_push] using inside

private theorem locals_newEntity (kind : EntityKind) (name : String) (type : TypeId) :
    (t.newEntity kind name type).locals = [] := by
  unfold newEntity
  split <;> rfl

private theorem type_newEntity (kind : EntityKind) (name : String) (type : TypeId) :
    (t.newEntity kind name type).type = type := by
  unfold newEntity
  split <;> rfl

theorem Valid.enter (valid : t.Valid) (kind : EntityKind) (name : String)
    (known : t.types.contains type = true) : (t.enter kind name type).Valid := by
  refine valid.push (by rw [type_newEntity]; exact known) (locals_newEntity kind name type) ?_
  intro scope member id entered
  cases scopes : t.scopes with
  | nil => simp [scopes] at member
  | cons first outer =>
    simp only [scopes, List.modifyHead_cons, List.mem_cons] at member
    rcases member with rfl | member
    · simp only [Scope.insert, List.mem_cons, next] at entered
      rcases entered with rfl | entered
      · simp
      · exact Nat.lt_succ_of_lt (valid.scopes first (by simp [scopes]) id entered)
    · exact Nat.lt_succ_of_lt (valid.scopes scope (by simp [scopes, member]) id entered)

theorem Valid.openScope (valid : t.Valid) : t.openScope.Valid := by
  refine { valid with scopes := ?_ }
  intro scope member
  simp only [SymbolTable.openScope, List.mem_cons] at member
  rcases member with rfl | member
  · simp
  · exact valid.scopes scope member

theorem Valid.leave (valid : t.Valid) : t.leave.Valid :=
  { valid with scopes := fun scope member => valid.scopes scope (List.mem_of_mem_tail member) }

theorem Valid.setFields (valid : t.Valid) (type : TypeId) {fields : List EntityId}
    (inside : ∀ id ∈ fields, t.contains id = true) : (t.setFields type fields).Valid := by
  have size : (t.types.setFields type fields).size = t.types.size := by
    simp [TypeTable.setFields, TypeTable.size]
  have infos {info : TypeInfo} (member : info ∈ (t.types.setFields type fields).infos.toList) :
      info ∈ t.types.infos.toList ∨ ∃ old ∈ t.types.infos.toList, info = { old with fields } := by
    obtain ⟨i, bound, rfl⟩ := List.getElem_of_mem member
    simp only [TypeTable.setFields, Array.getElem_toList, Array.getElem_modify]
    split
    · exact .inr ⟨_, by simp, rfl⟩
    · exact .inl (by simp)
  refine ⟨valid.entities, by simp only [SymbolTable.setFields, size]; exact valid.types, ?_,
    valid.locals, ?_, ?_, valid.scopes⟩
  · intro e member
    simp only [SymbolTable.setFields, size]
    exact valid.type e member
  · intro info member a isElem
    simp only [SymbolTable.setFields, size]
    rcases infos member with member | ⟨old, isOld, rfl⟩
    · exact valid.elem info member a isElem
    · exact valid.elem old isOld a isElem
  · intro info member id isField
    rcases infos member with member | ⟨old, isOld, rfl⟩
    · exact valid.fields info member id isField
    · change _ < t.entities.size
      simpa [contains] using inside id isField

end SymbolTable

/-! ## Effects on the state -/

namespace CodeBuffer

/-- Whether code is other code with complete instructions behind it, none of which waits for a
label. -/
def Continues (c c' : CodeBuffer) : Prop :=
  ∃ items, Items.Await [] items ∧ c'.bytes.toList = c.bytes.toList ++ Items.bytes c.pc items

variable {c c1 c2 : CodeBuffer}

theorem pc_of_bytes {items : List Item}
    (bytes : c1.bytes.toList = c.bytes.toList ++ Items.bytes c.pc items) :
    c1.pc = c.pc + Items.size items := by
  have length := congrArg List.length bytes
  simpa [CodeBuffer.pc, Items.length_bytes] using length

theorem Continues.ofBytes (same : c1.bytes = c.bytes) : c.Continues c1 :=
  ⟨[], Items.straight_nil.await _, by simp [same, Items.bytes]⟩

theorem Continues.trans (first : c.Continues c1) (second : c1.Continues c2) : c.Continues c2 := by
  obtain ⟨front, await1, bytes1⟩ := first
  obtain ⟨back, await2, bytes2⟩ := second
  refine ⟨front ++ back, Items.await_append.mpr ⟨await1, await2⟩, ?_⟩
  rw [bytes2, bytes1, Items.bytes_append, pc_of_bytes bytes1, List.append_assoc]

theorem Continues.isPrefix (continues : c.Continues c1) : c.bytes.toList <+: c1.bytes.toList := by
  obtain ⟨items, _, bytes⟩ := continues
  exact ⟨_, bytes.symm⟩

end CodeBuffer

namespace Compiler

/-- What every declaration does to a state. The scopes around the current one stay as they are. -/
structure Grows (s s' : Compiler) : Prop where
  valid : s'.Valid
  entities : s.table.entities.size ≤ s'.table.entities.size
  types : s.table.types.size ≤ s'.table.types.size
  inScope : s'.table.scopes ≠ []
  outer : s'.table.scopes.tail = s.table.scopes.tail
  limits : s'.limits = s.limits
  method : s'.method = s.method
  exits : s'.loopExits = s.loopExits
  continues : s.code.Continues s'.code

/-- What a declaration without code does to a state. -/
structure Enters (s s' : Compiler) : Prop extends Grows s s' where
  code : s'.code = s.code

/-- Whether something can be declared in a state. -/
structure Ready (s : Compiler) : Prop where
  valid : s.Valid
  inScope : s.table.scopes ≠ []

variable {s s1 s2 : Compiler}

theorem Grows.ready (grows : s.Grows s1) : s1.Ready := ⟨grows.valid, grows.inScope⟩

theorem Grows.trans (first : s.Grows s1) (second : s1.Grows s2) : s.Grows s2 where
  valid := second.valid
  entities := Nat.le_trans first.entities second.entities
  types := Nat.le_trans first.types second.types
  inScope := second.inScope
  outer := second.outer.trans first.outer
  limits := second.limits.trans first.limits
  method := second.method.trans first.method
  exits := second.exits.trans first.exits
  continues := first.continues.trans second.continues

theorem Enters.trans (first : s.Enters s1) (second : s1.Enters s2) : s.Enters s2 where
  toGrows := first.toGrows.trans second.toGrows
  code := second.code.trans first.code

theorem Enters.refl (ready : s.Ready) : s.Enters s :=
  ⟨⟨ready.valid, Nat.le_refl _, Nat.le_refl _, ready.inScope, rfl, rfl, rfl, rfl, .ofBytes rfl⟩, rfl⟩

/-- A step of a method body that adds no code. -/
theorem Extends.enters (extension : s.Extends s1 []) (ready : s.Ready) : s.Enters s1 := by
  refine ⟨⟨extension.valid, Nat.le_of_eq (congrArg Array.size extension.entities.symm),
    extension.types, ?_, ?_, extension.limits, extension.method, ?_, .ofBytes ?_⟩, extension.code⟩
  · rw [extension.scopes]
    exact ready.inScope
  · rw [extension.scopes]
  · rw [extension.exits]
    exact noteSlots_nil _
  · rw [extension.code]
    rfl

theorem Grows.contains (grows : s.Grows s1) (inside : s.table.contains id = true) :
    s1.table.contains id = true := by
  have := grows.entities
  simp only [SymbolTable.contains, decide_eq_true_eq] at *
  omega

theorem Grows.contains_type (grows : s.Grows s1) {a : TypeId}
    (inside : s.table.types.contains a = true) : s1.table.types.contains a = true := by
  have := grows.types
  simp only [TypeTable.contains, decide_eq_true_eq] at *
  omega

/-- A valid change of the symbol table alone. -/
theorem Enters.ofTable (valid : s.Valid) {table : SymbolTable} (validTable : table.Valid)
    (entities : s.table.entities.size ≤ table.entities.size)
    (types : s.table.types.size ≤ table.types.size) (inScope : table.scopes ≠ [])
    (outer : table.scopes.tail = s.table.scopes.tail) : s.Enters { s with table } := by
  refine ⟨⟨⟨validTable, valid.tokens, valid.reporter, ?_, valid.exits, valid.code⟩, entities, types,
    inScope, outer, rfl, rfl, rfl, .ofBytes rfl⟩, rfl⟩
  intro id is
  have := valid.method id is
  simp only [contains, decide_eq_true_eq] at *
  omega

end Compiler

namespace Compile

variable {s : Compiler}

/-! ## Steps -/

theorem modifyEntity_enters (ready : s.Ready) (inside : s.table.contains id = true)
    (validTable : (s.table.modify id f).Valid) :
    Ensures (modifyEntity id f) s fun _ s' =>
      s.Enters s' ∧ s' = { s with table := s.table.modify id f } := by
  refine .get ?_
  rw [if_pos inside]
  refine ⟨_, _, rfl, .ofTable ready.valid validTable ?_ (Nat.le_refl _) ready.inScope rfl, rfl⟩
  simp [SymbolTable.modify]

theorem setFields_enters (ready : s.Ready) (known : s.table.types.contains type = true)
    {fields : List EntityId} (inside : ∀ id ∈ fields, s.table.contains id = true) :
    Ensures (setFields type fields) s fun _ s' =>
      s.Enters s' ∧ s' = { s with table := s.table.setFields type fields } := by
  refine .requireType known ?_
  refine ⟨_, _, rfl, .ofTable ready.valid (ready.valid.table.setFields type inside) (Nat.le_refl _) ?_
    ready.inScope rfl, rfl⟩
  simp [TypeTable.setFields, TypeTable.size]

private theorem insert_valid {t : SymbolTable} (valid : t.Valid) (inScope : t.scopes ≠ [])
    (kind : EntityKind) (name : String) (known : t.types.contains type = true) :
    ∃ id t' problems, t.insert kind name type = .ok { result := (id, t'), problems } ∧ t'.Valid ∧
      t.entities.size ≤ t'.entities.size ∧ t'.types = t.types ∧ t'.scopes ≠ [] ∧
      t'.scopes.tail = t.scopes.tail ∧ t'.contains id = true ∧
      (problems = [] → name ≠ "" → t.Fresh name ∧ id = t.next ∧ t' = t.enter kind name type) := by
  by_cases named : name = ""
  · refine ⟨_, _, _, by simp only [SymbolTable.insert, named, if_true]; rfl, ?_⟩
    refine ⟨valid.push known rfl fun scope member id entered =>
      Nat.lt_succ_of_lt (valid.scopes scope member id entered), ?_, rfl, inScope, rfl, ?_, ?_⟩
    · simp
    · simp [contains]
    · exact fun _ named' => absurd named named'
  · refine ⟨_, _, _, insert_eq named inScope kind type, valid.enter kind name known, ?_,
      rfl, ?_, ?_, ?_, ?_⟩
    · simp [enter]
    · cases scopes : t.scopes with
      | nil => exact absurd scopes inScope
      | cons scope outer => simp [enter, scopes]
    · cases scopes : t.scopes <;> simp [enter, scopes]
    · simp [contains, enter, next]
    · intro none named
      refine ⟨⟨named, ?_⟩, rfl, rfl⟩
      cases found : t.findLocal? name with
      | none => rfl
      | some id => simp [found] at none

theorem declare_enters (ready : s.Ready) (kind : EntityKind) (name : String)
    (known : s.table.types.contains type = true) :
    Ensures (declare kind name type) s fun id s' => s.Enters s' ∧ s'.table.contains id = true ∧
      (s'.Clean → s.Clean ∧ s'.tokens = s.tokens ∧ (name ≠ "" → s.table.Fresh name ∧
        id = s.table.next ∧ s'.table = s.table.enter kind name type)) := by
  obtain ⟨id, table, problems, run, validTable, entities, types, inScope', outer, inside, fresh⟩ :=
    insert_valid ready.valid.table ready.inScope kind name known
  refine ⟨id, { s with table, reporter := problems.foldl .report s.reporter }, ?_, ?_, inside,
    fun clean => ?_⟩
  · simp only [declare, run]
  · have reported := (code_does ready.valid [] (.nil _) problems).enters ready
    exact reported.trans (.ofTable reported.valid validTable entities
      (Nat.le_of_eq (by rw [types])) inScope' outer)
  · have none : problems = [] := foldl_report_clean ready.valid.reporter clean
    subst none
    exact ⟨clean, rfl, fresh rfl⟩

/-- A declaration other than that of a variable adds at most a name to the current scope. -/
theorem declare_scopes {kind : EntityKind} (notVar : kind ≠ .var) {name : String} {s' : Compiler}
    (run : declare kind name type s = .ok (id, s')) :
    ∃ added, s'.table.scopes = s.table.scopes.modifyHead fun scope =>
      { scope with entries := added ++ scope.entries } := by
  unfold declare SymbolTable.insert at run
  by_cases named : name = ""
  · simp only [named, if_true] at run
    cases run
    refine ⟨[], ?_⟩
    simp only [add]
    cases s.table.scopes <;> rfl
  · cases scopes : s.table.scopes with
    | nil => simp [named, scopes] at run
    | cons scope outer =>
      simp only [named, if_false, scopes] at run
      cases run
      exact ⟨[⟨s.table.entities.size⟩], by simp [add, Scope.insert, notVar]⟩

theorem currentScope_run (inScope : s.table.scopes ≠ []) : ∃ scope,
    currentScope s = .ok (scope, s) ∧ scope.declarations = s.table.declared ∧
      scope.varCount = s.table.varCount := by
  cases scopes : s.table.scopes with
  | nil => exact absurd scopes inScope
  | cons scope outer =>
    refine ⟨scope, ?_, by simp [declared, scopes], by simp [varCount, scopes]⟩
    have current : s.table.currentScope = .ok scope := by simp [SymbolTable.currentScope, scopes]
    simp only [Compile.currentScope, bind, StateT.bind, Except.bind, MonadState.get,
      MonadStateOf.get, getThe, StateT.get, Pure.pure, Except.pure, current]
    rfl

/-- The effect of a declaration without code. -/
def Announces {φ : Type} (s s' : Compiler) (lexemes : φ → List Lexeme)
    (rule : SymbolTable → φ → SymbolTable → Prop) : Prop :=
  s.Enters s' ∧ (s'.Clean → s.Clean ∧ ∃ d, s.tokens.upcoming = lexemes d ++ s'.tokens.upcoming ∧
    rule s.table d s'.table)

theorem typeName_announces (ready : s.Ready) :
    Ensures typeName s fun type s' => s'.table.types.contains type = true ∧
      Announces s s' TypeName.lexemes fun t name t' => name.Resolves t type t' := by
  refine .bind (expectName_does ready.valid) fun name s1 named => ?_
  refine .bind (find_does named.valid name) ?_
  rintro id s2 ⟨inside, found⟩
  rw [named.table] at inside found
  have front := named.trans found
  refine .entityOf (by rw [front.contains]; exact inside) ?_
  rw [front.entity]
  refine .check front.valid fun s3 isType => ?_
  have front := front.trans isType
  have known : s3.table.types.contains
      (if (s.table.entity id).kind = .type then (s.table.entity id).type else .none) = true := by
    split
    · exact front.contains_type (ready.valid.table.contains_type inside)
    · exact front.valid.table.contains_basic (by decide)
  refine .lookahead ?_
  split
  · next bracket =>
    refine .bind (scan_mark front.valid fun _ => bracket) fun _ s4 opened => ?_
    refine .expectMark opened.valid fun s5 closed => ?_
    have front := (front.trans opened).trans closed
    refine (addArray_extends front.valid ((opened.trans closed).contains_type known)).mono ?_
    rintro type s6 ⟨extends6, inside6, same, table, clean', tokens⟩
    refine ⟨inside6, (front.toExtends.trans extends6).enters ready, fun clean => ?_⟩
    obtain ⟨clean, reads, ⟨⟨⟨⟨_, means⟩, isType⟩, _⟩, _⟩⟩ := front.accepted (clean' clean)
    have isType : (s.table.entity id).kind = .type := by simpa using isType
    refine ⟨clean, ⟨name, true⟩, ?_, ?_⟩
    · simp [reads, tokens, TypeName.lexemes]
    · rw [table, same, front.table, if_pos isType]
      exact .array means isType
  · refine .pure ⟨known, front.enters ready, fun clean => ?_⟩
    obtain ⟨clean, reads, ⟨⟨_, means⟩, isType⟩⟩ := front.accepted clean
    have isType : (s.table.entity id).kind = .type := by simpa using isType
    refine ⟨clean, ⟨name, false⟩, ?_, ?_⟩
    · simp [reads, TypeName.lexemes]
    · rw [front.table, if_pos isType]
      exact .plain means isType

private theorem literal_of_kind {lexeme : Lexeme} (found : literalType? lexeme.kind = some type) :
    ∃ literal : Literal, literal.type = type ∧ lexeme = literal.lexeme ∧
      lexeme.value = literal.value := by
  cases lexeme with
  | number value => exact ⟨.number value, Option.some.inj found, rfl, rfl⟩
  | charConst value => exact ⟨.character value, Option.some.inj found, rfl, rfl⟩
  | _ => simp [literalType?, Lexeme.kind] at found

theorem constantValue_ensures (ready : s.Ready) {id : EntityId}
    (inside : s.table.contains id = true) (type : TypeId) :
    Ensures (constantValue id type) s fun _ s' => s.Enters s' ∧ (s'.Clean → s.Clean ∧
      ∃ literal : Literal, literal.type = type ∧
        s.tokens.upcoming = literal.lexeme :: s'.tokens.upcoming ∧
        s'.table = s.table.modify id fun e => { e with value := literal.value }) := by
  refine .lookahead ?_
  split
  · next found =>
    split
    · next same =>
      subst same
      have more : s.tokens.peek.kind ≠ .eof := by
        intro atEnd
        simp [atEnd, literalType?] at found
      refine .bind (scan_kind ready.valid (fun _ => rfl) more) fun _ s1 scanned => ?_
      have inside1 : s1.table.contains id = true := by rw [scanned.contains]; exact inside
      have enters := scanned.enters ready
      refine .previous (.mono (modifyEntity_enters enters.ready inside1
        (scanned.valid.table.modify_plain id (fun _ => rfl) fun _ => rfl)) ?_)
      rintro _ s2 ⟨enters2, same⟩
      refine ⟨enters.trans enters2, fun clean => ?_⟩
      subst same
      obtain ⟨clean, reads, kind⟩ := scanned.accepted clean
      rw [← kind] at found
      obtain ⟨literal, isType, written, value⟩ := literal_of_kind found
      refine ⟨clean, literal, isType, ?_, ?_⟩
      · rw [reads, written]
        rfl
      · rw [scanned.table]
        simp only [Token.value, value]
    · exact (report_does ready.valid _).mono fun _ _ ⟨reported, problem⟩ =>
        ⟨reported.enters ready, fun clean => absurd clean problem⟩
  · exact (report_does ready.valid _).mono fun _ _ ⟨reported, problem⟩ =>
      ⟨reported.enters ready, fun clean => absurd clean problem⟩

theorem constDeclaration_announces {limits : Limits} (ready : s.Ready) :
    Ensures constDeclaration s fun _ s' => Announces s s' Decl.lexemes (Decl.Declares limits · · ·) := by
  refine .bind (expect_keyword ready.valid _) fun _ s1 final => ?_
  have enters := final.enters ready
  refine .bind (typeName_announces enters.ready) ?_
  rintro type s2 ⟨known, enters2, accepted2⟩
  have enters := enters.trans enters2
  refine .bind (expectName_does enters.valid) fun name s3 named => ?_
  have enters := enters.trans (named.enters enters.ready)
  refine .bind (declare_enters enters.ready .con name
    (named.contains_type known)) ?_
  rintro id s4 ⟨enters4, inside, accepted4⟩
  have enters := enters.trans enters4
  refine .expectMark enters.valid fun s5 assigned => ?_
  have enters := enters.trans (assigned.enters enters.ready)
  have inside5 : s5.table.contains id = true := by rw [assigned.contains]; exact inside
  refine .bind (constantValue_ensures enters.ready inside5 type) ?_
  rintro _ s6 ⟨enters6, accepted6⟩
  have enters := enters.trans enters6
  refine (expect_mark enters.valid).mono fun _ s7 ended => ?_
  refine ⟨enters.trans (ended.enters enters.ready), fun clean => ?_⟩
  obtain ⟨clean, reads6, _⟩ := ended.accepted clean
  obtain ⟨clean, literal, rfl, reads5, table6⟩ := accepted6 clean
  obtain ⟨clean, reads4, _⟩ := assigned.accepted clean
  obtain ⟨clean, tokens4, declared⟩ := accepted4 clean
  obtain ⟨clean, reads2, isNamed⟩ := named.accepted clean
  obtain ⟨clean, typeName, reads1, resolved⟩ := accepted2 clean
  obtain ⟨clean, reads, _⟩ := final.accepted clean
  obtain ⟨fresh, rfl, table4⟩ := declared isNamed
  rw [named.table] at fresh table4
  rw [final.table] at resolved
  refine ⟨clean, .const typeName name literal, ?_, ?_⟩
  · rw [tokens4] at reads4
    simp [reads, reads1, reads2, reads4, reads5, reads6, Decl.lexemes]
  · rw [ended.table, table6, assigned.table, table4, named.table]
    exact .const resolved fresh

/-- Declarations between commas. The relation `r` is built up from the last one to the first. -/
theorem commaSeparated_announces {α φ : Type} {item : α → Compile α} {i : α → Compiler → Prop}
    (lexemes : φ → List Lexeme) {r : α → SymbolTable → List φ → α → SymbolTable → Prop}
    (sound : ∀ a s, i a s → s.Ready) (comma : ∀ a s s', i a s → s.Enters s' → i a s')
    (nil : ∀ a t, r a t [] a t)
    (step : ∀ a s, i a s → Ensures (item a) s fun a1 s1 => i a1 s1 ∧
      Announces s s1 lexemes fun t d t1 => ∀ rest a2 t2, r a1 t1 rest a2 t2 →
      r a t (d :: rest) a2 t2) {a : α} (start : i a s) :
    Ensures (commaSeparated item a) s fun a' s' => i a' s' ∧
      Announces s s'
        (fun ds : φ × List φ => lexemes ds.1 ++ ds.2.flatMap fun d => .mark .comma :: lexemes d)
        fun t ds t' => r a t (ds.1 :: ds.2) a' t' := by
  refine .bind (step a s start) ?_
  rintro a1 s1 ⟨start1, enters1, accepted1⟩
  refine (repeatWhile_ensures (i := i) (r := fun a s a' s' => i a' s' ∧
    Announces s s' (fun ds => ds.flatMap fun d => .mark .comma :: lexemes d)
      fun t ds t' => r a t ds a' t') ?stop ?next start1).mono ?result
  case stop =>
    intro a s holds
    exact ⟨holds, .refl (sound a s holds), fun clean =>
      ⟨clean, [], rfl, nil a _⟩⟩
  case next =>
    intro a s holds more
    refine .bind (scan_mark (sound a s holds).valid fun _ => by simpa using more)
      fun _ s1 scanned => ?_
    have enters := scanned.enters (sound a s holds)
    refine (step a s1 (comma a s s1 holds enters)).mono fun a2 s2
      ⟨holds2, enters2, accepted2⟩ => ⟨holds2, ?_⟩
    rintro a3 s3 ⟨holds3, enters3, accepted3⟩
    refine ⟨holds3, (enters.trans enters2).trans enters3, fun clean => ?_⟩
    obtain ⟨clean, rest, reads3, holds3⟩ := accepted3 clean
    obtain ⟨clean, d, reads2, extend⟩ := accepted2 clean
    obtain ⟨clean, reads1, _⟩ := scanned.accepted clean
    refine ⟨clean, d :: rest, by simp [reads1, reads2, reads3], ?_⟩
    rw [scanned.table] at extend
    exact extend rest _ _ holds3
  case result =>
    rintro a2 s2 ⟨holds2, enters2, accepted2⟩
    refine ⟨holds2, enters1.trans enters2, fun clean => ?_⟩
    obtain ⟨clean, rest, reads2, holds2⟩ := accepted2 clean
    obtain ⟨clean, d, reads1, extend⟩ := accepted1 clean
    exact ⟨clean, (d, rest), by simp [reads1, reads2], extend rest _ _ holds2⟩

theorem varDeclaration_announces (ready : s.Ready) :
    Ensures varDeclaration s fun _ s' => Announces s s' VarDecl.lexemes fun t d t' =>
      ∃ type t1, d.type.Resolves t type t1 ∧ DeclareNames type t1 d.names t' := by
  refine .bind (typeName_announces ready) ?_
  rintro type s1 ⟨known, enters1, accepted1⟩
  refine .bind (commaSeparated_announces (fun name => [.ident name])
    (i := fun _ s => s.Ready ∧ s.table.types.contains type = true)
    (r := fun _ t names _ t' => DeclareNames type t names t') ?_ ?_ ?_ ?_
    ⟨enters1.ready, known⟩) ?_
  · exact fun _ _ holds => holds.1
  · exact fun _ s s' holds enters => ⟨enters.ready, enters.contains_type holds.2⟩
  · exact fun _ _ => .nil
  · rintro _ s ⟨ready, known⟩
    refine .lookahead ?_
    split
    · next ident =>
      refine .bind (scan_kind ready.valid (fun _ => ident) (by simp)) fun _ s2 scanned => ?_
      have named := does_name ready.valid scanned
      have enters := named.enters ready
      refine .previous (.bind (declare_enters enters.ready .var _
        (enters.contains_type known)) ?_)
      rintro id s3 ⟨enters3, _, accepted3⟩
      have enters := enters.trans enters3
      refine .pure ⟨⟨enters.ready, enters.contains_type known⟩, enters,
        fun clean => ?_⟩
      obtain ⟨clean, tokens3, declared⟩ := accepted3 clean
      obtain ⟨clean, reads, isNamed⟩ := named.accepted clean
      obtain ⟨fresh, _, table3⟩ := declared isNamed
      rw [named.table] at fresh table3
      refine ⟨clean, s2.tokens.prev.name, by rw [reads, tokens3], ?_⟩
      intro rest _ t2 more
      rw [table3] at more
      exact .cons fresh more
    · refine (report_does ready.valid _).mono ?_
      rintro _ s1 ⟨reported, problem⟩
      have enters := reported.enters ready
      exact ⟨⟨enters.ready, enters.contains_type known⟩, enters,
        fun clean => absurd clean problem⟩
  · rintro _ s2 ⟨_, enters2, accepted2⟩
    refine (expect_mark enters2.valid).mono fun _ s3 ended => ?_
    refine ⟨(enters1.trans enters2).trans (ended.enters enters2.ready), fun clean => ?_⟩
    obtain ⟨clean, reads2, _⟩ := ended.accepted clean
    obtain ⟨clean, ⟨first, rest⟩, reads1, names⟩ := accepted2 clean
    obtain ⟨clean, typeName, reads, resolved⟩ := accepted1 clean
    refine ⟨clean, ⟨typeName, first, rest⟩, ?_, type, s1.table, resolved, ?_⟩
    · simp [reads, reads1, reads2, VarDecl.lexemes]
    · rw [ended.table]
      exact names

/-- Declarations one after the other. -/
theorem repeatWhile_announces {φ : Type} {test : TokenKind → Bool} {body : Compile Unit}
    {lexemes : φ → List Lexeme} {limits : Limits} {rule : SymbolTable → φ → SymbolTable → Prop}
    {all : SymbolTable → List φ → SymbolTable → Prop} (nil : ∀ t, all t [] t)
    (cons : ∀ {t d t1 ds t2}, rule t d t1 → all t1 ds t2 → all t (d :: ds) t2)
    (each : ∀ s, s.Ready → s.limits = limits →
      Ensures body s fun _ s' => Announces s s' lexemes rule) (ready : s.Ready)
    (same : s.limits = limits) :
    Ensures (repeatWhile test (fun _ => body) ()) s fun _ s' =>
      Announces s s' (·.flatMap lexemes) all := by
  refine repeatWhile_ensures (i := fun _ s => s.Ready ∧ s.limits = limits)
    (r := fun _ s _ s' => Announces s s' (·.flatMap lexemes) all) ?stop ?step ⟨ready, same⟩
  case stop =>
    rintro _ s ⟨ready, _⟩
    exact ⟨.refl ready, fun clean => ⟨clean, [], rfl, nil _⟩⟩
  case step =>
    rintro _ s ⟨ready, same⟩ _
    refine (each s ready same).mono ?_
    rintro _ s1 ⟨enters1, accepted1⟩
    refine ⟨⟨enters1.ready, enters1.limits.trans same⟩, ?_⟩
    rintro _ s2 ⟨enters2, accepted2⟩
    refine ⟨enters1.trans enters2, fun clean => ?_⟩
    obtain ⟨clean, ds, reads2, more⟩ := accepted2 clean
    obtain ⟨clean, d, reads1, first⟩ := accepted1 clean
    exact ⟨clean, d :: ds, by simp [reads1, reads2], cons first more⟩

theorem varDeclarations_announces (ready : s.Ready) :
    Ensures varDeclarations s fun _ s' =>
      Announces s s' (·.flatMap VarDecl.lexemes) VarDecl.DeclareAll :=
  repeatWhile_announces (fun _ => .nil) (fun ⟨_, _, resolved, names⟩ => .cons resolved names)
    (fun _ ready _ => varDeclaration_announces ready) ready rfl

/-! ## Scopes -/

theorem declared_contains {t : SymbolTable} (valid : t.Valid) :
    ∀ id ∈ t.declared, t.contains id = true := by
  intro id member
  cases scopes : t.scopes with
  | nil => simp [declared, scopes] at member
  | cons scope outer =>
    simp only [declared, scopes, List.head?_cons, Option.elim_some, Scope.declarations,
      List.mem_reverse] at member
    simpa [contains] using valid.scopes scope (by simp [scopes]) id member

/-- Running an action in a scope of its own. -/
theorem inScope_ensures {action : Compile Unit} {r : Unit → Compiler → Prop}
    (run : Ensures action { s with table := s.table.openScope } r)
    (stillOpen : ∀ s1, r () s1 → s1.table.scopes ≠ []) :
    Ensures (inScope action) s fun ids s2 => ∃ s1, r () s1 ∧ ids = s1.table.declared ∧
      s2 = { s1 with table := s1.table.leave } := by
  refine .ofRun rfl ?_
  refine .bind run fun _ s1 holds => .get ?_
  have closed : s1.table.closeScope = .ok (s1.table.declared, s1.table.leave) := by
    cases scopes : s1.table.scopes with
    | nil => exact absurd scopes (stillOpen s1 holds)
    | cons scope outer =>
      simp [closeScope, declared, leave, scopes]
  rw [closed]
  exact ⟨_, _, rfl, s1, holds, rfl, rfl⟩

theorem openScope_ready (valid : s.Valid) :
    { s with table := s.table.openScope : Compiler }.Ready :=
  ⟨{ valid with table := valid.table.openScope }, List.cons_ne_nil _ _⟩

/-- What an action in a scope of its own does to a state. -/
theorem Grows.leave {s1 : Compiler} (inScope : s.table.scopes ≠ [])
    (grows : { s with table := s.table.openScope : Compiler }.Grows s1) :
    s.Grows { s1 with table := s1.table.leave } := by
  have outer : s1.table.scopes.tail = s.table.scopes := grows.outer
  exact { grows with
    valid := { grows.valid with table := grows.valid.table.leave }
    inScope := by simpa only [SymbolTable.leave, outer] using inScope
    outer := congrArg List.tail outer }

theorem Enters.leave {s1 : Compiler} (inScope : s.table.scopes ≠ [])
    (enters : { s with table := s.table.openScope : Compiler }.Enters s1) :
    s.Enters { s1 with table := s1.table.leave } :=
  ⟨Grows.leave inScope enters.toGrows, enters.code⟩

theorem fields_announces (ready : s.Ready) :
    Ensures fieldDeclarations s fun _ s' =>
      Announces s s' (·.flatMap VarDecl.lexemes) fun t ds t' =>
        VarDecl.DeclareAll t ds t' ∧ t'.varCount ≤ s.limits.fields := by
  refine .bind (varDeclarations_announces ready) ?_
  rintro _ s1 ⟨enters, accepted⟩
  obtain ⟨scope, run, _, count⟩ := currentScope_run enters.inScope
  refine .get (.ofRun run ?_)
  refine (reportIf_does enters.valid _ _).mono fun _ s2 checked => ?_
  refine ⟨enters.trans (checked.enters enters.ready), fun clean => ?_⟩
  obtain ⟨clean, reads', within⟩ := checked.accepted clean
  obtain ⟨clean, ds, reads, all⟩ := accepted clean
  refine ⟨clean, ds, by simp [reads, reads'], ?_, ?_⟩
  · rw [checked.table]
    exact all
  · rw [checked.table, ← enters.limits, ← count]
    simpa using within

theorem classDeclaration_announces (ready : s.Ready) :
    Ensures classDeclaration s fun _ s' =>
      Announces s s' Decl.lexemes (Decl.Declares s.limits · · ·) := by
  refine .bind (expect_keyword ready.valid _) fun _ s1 class_ => ?_
  refine .bind (expectName_does class_.valid) fun name s2 named => ?_
  have front := class_.trans named
  have enters := front.enters ready
  refine .ofRun rfl ?_
  have added : s2.Enters { s2 with table := s2.table.addClass.2 } := by
    refine .ofTable enters.valid (enters.valid.table.addType (by simp) rfl) (Nat.le_refl _) ?_
      enters.inScope rfl
    simp [SymbolTable.addClass, TypeTable.addClass, TypeTable.add, TypeTable.size]
  have knownClass : s2.table.addClass.2.types.contains s2.table.addClass.1 = true := by
    simp [SymbolTable.addClass, TypeTable.addClass, TypeTable.add, TypeTable.contains, TypeTable.size]
  have enters := enters.trans added
  refine .bind (declare_enters added.ready .type name knownClass) ?_
  rintro id s3 ⟨enters3, _, accepted3⟩
  have enters := enters.trans enters3
  refine .expectMark enters.valid fun s4 opened => ?_
  have enters4 := enters.trans (opened.enters enters.ready)
  refine .bind (inScope_ensures (fields_announces (openScope_ready enters4.valid))
    fun s5 holds => holds.1.inScope) ?_
  rintro _ _ ⟨s5, ⟨enters5, accepted5⟩, rfl, rfl⟩
  have left := Enters.leave enters4.inScope enters5
  have enters := enters4.trans left
  have knownClass := (enters3.trans (opened.enters enters3.ready)).trans left
    |>.contains_type knownClass
  have inside : ∀ id ∈ s5.table.declared, s5.table.leave.contains id = true :=
    declared_contains enters5.valid.table
  refine .bind (setFields_enters enters.ready knownClass inside) ?_
  rintro _ _ ⟨enters6, same⟩
  subst same
  have enters := enters.trans enters6
  refine (expect_mark enters.valid).mono fun _ s7 closed => ?_
  refine ⟨enters.trans (closed.enters enters.ready), fun clean => ?_⟩
  obtain ⟨clean, reads7, _⟩ := closed.accepted clean
  obtain ⟨clean, fields, reads5, all, capacity⟩ := accepted5 clean
  obtain ⟨clean, reads4, _⟩ := opened.accepted clean
  obtain ⟨clean, tokens3, declared⟩ := accepted3 clean
  obtain ⟨clean, reads, _, isNamed⟩ := front.accepted clean
  obtain ⟨fresh, rfl, table3⟩ := declared isNamed
  refine ⟨clean, .classDecl name fields, ?_, ?_⟩
  · rw [tokens3] at reads4
    simp only at reads4 reads5 reads7
    simp [reads, reads4, reads5, reads7, Decl.lexemes]
  · rw [closed.table]
    simp only [opened.table, table3, front.table] at all
    simp only [enters4.limits] at capacity
    change s2.table.Fresh name at fresh
    rw [front.table] at fresh
    simp only [front.table]
    exact .classDecl fresh all capacity

/-! ## Parameters -/

/-- What parameters do to their number and the last of them. -/
def Lists (a : Nat × Option EntityId) (t : SymbolTable) (ps : List Parameter)
    (a' : Nat × Option EntityId) (t' : SymbolTable) : Prop :=
  a'.1 = a.1 + ps.length ∧ (ps = [] ∧ a' = a ∧ t' = t ∨
    ∃ last, a'.2 = some last ∧ Parameter.DeclareAll t ps last t')

theorem parameter_announces (a : Nat × Option EntityId) (ready : s.Ready) :
    Ensures (parameter a) s fun a1 s1 =>
      (s1.Ready ∧ ∀ id ∈ a1.2, s1.table.contains id = true) ∧
      Announces s s1 Parameter.lexemes fun t p t1 => ∀ rest a2 t2,
        Lists a1 t1 rest a2 t2 → Lists a t (p :: rest) a2 t2 := by
  refine .bind (typeName_announces ready) ?_
  rintro type s1 ⟨known, enters1, accepted1⟩
  refine .bind (expectName_does enters1.valid) fun name s2 named => ?_
  have enters2 := named.enters enters1.ready
  refine .bind (declare_enters enters2.ready .var name
    (enters2.contains_type known)) ?_
  rintro id s3 ⟨enters3, inside, accepted3⟩
  have enters := (enters1.trans enters2).trans enters3
  refine .pure ⟨⟨enters.ready, by simpa using inside⟩, enters,
    fun clean => ?_⟩
  obtain ⟨clean, tokens, declared⟩ := accepted3 clean
  obtain ⟨clean, reads2, isNamed⟩ := named.accepted clean
  obtain ⟨clean, typeName, reads1, resolved⟩ := accepted1 clean
  obtain ⟨fresh, rfl, table⟩ := declared isNamed
  rw [named.table] at fresh table
  refine ⟨clean, ⟨typeName, name⟩, by simp [reads1, reads2, tokens, Parameter.lexemes], ?_⟩
  rintro rest a2 t2 ⟨count, last⟩
  refine ⟨by simp only [count, List.length_cons]; omega, .inr ?_⟩
  rw [table] at last
  rcases last with ⟨rfl, rfl, rfl⟩ | ⟨last, same, more⟩
  · refine ⟨_, rfl, ?_⟩
    rw [named.table]
    exact .one resolved fresh
  · exact ⟨last, same, .cons resolved fresh more⟩

theorem collectAt_enters (ready : s.Ready) {method last : EntityId}
    (knownMethod : s.table.contains method = true) (knownLast : s.table.contains last = true) :
    Ensures (collectAt method last) s fun _ s' =>
      s.Enters s' ∧ s' = { s with table := collectRest s.table method last } := by
  refine .entityOf knownLast ?_
  have knownType := ready.valid.table.contains_type knownLast
  refine .bind (addArray_ensures knownType) ?_
  rintro type s1 ⟨isType, isState⟩
  have array : s.Enters s1 := by
    subst isState
    refine .ofTable ready.valid (ready.valid.table.addType (by simpa using knownType) rfl) (Nat.le_refl _) ?_
      ready.inScope rfl
    simp [SymbolTable.addArray, TypeTable.addArray, TypeTable.add, TypeTable.size]
  have knownArray : s1.table.types.contains type = true := by
    subst isType isState
    simp [SymbolTable.addArray, TypeTable.addArray, TypeTable.add, TypeTable.contains,
      TypeTable.size]
  have retyped : (s1.table.modify last fun e => { e with type }).Valid :=
    array.valid.table.modify last (fun _ => knownArray)
      fun inside _ isLocal => array.valid.table.contains_local inside isLocal
  refine .bind (modifyEntity_enters array.ready (array.contains knownLast)
    retyped) ?_
  rintro _ s2 ⟨enters2, same2⟩
  refine .mono (modifyEntity_enters enters2.ready
    (enters2.contains (array.contains knownMethod))
    (enters2.valid.table.modify_plain method (fun _ => rfl) fun _ => rfl)) ?_
  rintro _ s3 ⟨enters3, same3⟩
  refine ⟨(array.trans enters2).trans enters3, ?_⟩
  subst isType isState same2 same3
  rfl

theorem parameters_announces (ready : s.Ready) {method : EntityId}
    (known : s.table.contains method = true) :
    Ensures (parameters method) s fun count s' =>
      Announces s s' Parameters.lexemes fun t ps t' => count = ps.all.length ∧
        ∃ last t1, Parameter.DeclareAll t ps.all last t1 ∧
          t' = if ps.variadic then collectRest t1 method last else t1 := by
  refine .bind (commaSeparated_announces Parameter.lexemes
    (i := fun a s => s.Ready ∧ ∀ id ∈ a.2, s.table.contains id = true)
    (r := Lists) ?_ ?_ ?_ (fun a s holds => parameter_announces a holds.1)
    ⟨ready, by simp⟩) ?_
  · exact fun _ _ holds => holds.1
  · exact fun _ s s' holds enters => ⟨enters.ready, fun id is =>
      enters.contains (holds.2 id is)⟩
  · exact fun a t => ⟨rfl, .inl ⟨rfl, rfl, rfl⟩⟩
  · rintro ⟨count, last⟩ s1 ⟨⟨_, knownLast⟩, enters1, accepted1⟩
    refine .lookahead ?_
    split
    · next dots =>
      refine .bind (scan_mark enters1.valid fun _ => dots) fun _ s2 scanned => ?_
      have enters := enters1.trans (scanned.enters enters1.ready)
      cases last with
      | none =>
        refine .pure ⟨enters, fun clean => ?_⟩
        obtain ⟨clean, _⟩ := scanned.accepted clean
        obtain ⟨_, _, _, _, ⟨empty, _⟩ | ⟨_, same, _⟩⟩ := accepted1 clean
        · simp at empty
        · simp at same
      | some last =>
        have knownLast : s2.table.contains last = true := by
          rw [scanned.contains]
          exact knownLast last rfl
        refine .bind (collectAt_enters enters.ready (enters.contains known) knownLast) ?_
        rintro _ s3 ⟨enters3, same⟩
        refine .pure ⟨enters.trans enters3, fun clean => ?_⟩
        subst same
        obtain ⟨clean, reads1, _⟩ := scanned.accepted clean
        obtain ⟨clean, ⟨first, rest⟩, reads, counts, ⟨empty, _⟩ | ⟨_, same, all⟩⟩ := accepted1 clean
        · simp at empty
        · cases same
          refine ⟨clean, ⟨first, rest, true⟩, ?_, ?_, last, s1.table, all, ?_⟩
          · simp [reads, reads1, Parameters.lexemes]
          · simpa [Parameters.all] using counts
          · rw [scanned.table]
            rfl
    · refine .pure ⟨enters1, fun clean => ?_⟩
      obtain ⟨clean, ⟨first, rest⟩, reads, counts, ⟨empty, _⟩ | ⟨last, _, all⟩⟩ := accepted1 clean
      · simp at empty
      · refine ⟨clean, ⟨first, rest, false⟩, ?_, ?_, last, s1.table, all, rfl⟩
        · simp [reads, Parameters.lexemes]
        · simpa [Parameters.all] using counts

end Compile

end MicroJava

import MicroJava.Compiler.Statement
import MicroJava.Proofs.Code.Access

/-! # Valid states of a compilation

`Compiler.Valid` is what every state of a compilation satisfies, whatever the source: references
stay inside the tables, labels of loops are not resolved yet, the code consists of complete
instructions, and nothing is held back unless something was recorded. `Compiler.Extends` says what
compiling a part of a method body does to a state.
-/

namespace MicroJava

open List

/-! ## Token streams -/

namespace TokenStream

variable {s : TokenStream}

/-- The lexemes from the lookahead on. -/
def upcoming (s : TokenStream) : List Lexeme := s.peek.lexeme :: s.rest.map (·.token.lexeme)

/-- Whether the end of the source is the last lexeme and no other, and no name is empty. -/
def WellFormed (s : TokenStream) : Prop :=
  ∃ front, s.upcoming = front ++ [.eof] ∧ .eof ∉ front ∧ .ident "" ∉ front

@[simp] theorem prev_advance : s.advance.prev = s.peek := by
  unfold advance
  split <;> rfl

section

variable (wellFormed : s.WellFormed)

include wellFormed

theorem WellFormed.advance : s.advance.WellFormed := by
  obtain ⟨front, all, rare, named⟩ := wellFormed
  unfold TokenStream.advance
  cases rest : s.rest with
  | nil => exact ⟨front, by simpa [upcoming, rest] using all, rare, named⟩
  | cons next rest' =>
    cases front with
    | nil => simp [upcoming, rest] at all
    | cons head front =>
      simp only [upcoming, rest, map_cons, cons_append, cons.injEq] at all
      exact ⟨front, all.2, fun inside => rare (mem_cons_of_mem _ inside),
        fun inside => named (mem_cons_of_mem _ inside)⟩

/-- Every token but the end of the source is consumed once. -/
theorem WellFormed.upcoming_eq (more : s.peek.lexeme ≠ .eof) :
    s.upcoming = s.peek.lexeme :: s.advance.upcoming := by
  obtain ⟨front, all, _⟩ := wellFormed
  cases rest : s.rest with
  | nil =>
    cases front with
    | nil => simp_all [upcoming]
    | cons head front => simp [upcoming, rest] at all
  | cons next rest' => simp [upcoming, TokenStream.advance, rest]

/-- At the end of a source nothing but the end is left. -/
theorem WellFormed.upcoming_eof (ended : s.peek.kind = .eof) : s.upcoming = [.eof] := by
  have peek : s.peek.lexeme = .eof := by
    cases lexeme : s.peek.lexeme <;> simp_all [Token.kind, Lexeme.kind]
  obtain ⟨front, all, rare, _⟩ := wellFormed
  cases front with
  | nil => exact all
  | cons head front =>
    simp only [upcoming, peek, cons_append, cons.injEq] at all
    exact absurd (all.1 ▸ mem_cons_self) rare

theorem WellFormed.named : s.peek.lexeme ≠ .ident "" := by
  obtain ⟨front, all, _, named⟩ := wellFormed
  intro unnamed
  apply named
  cases front with
  | nil => simp [upcoming, unnamed] at all
  | cons head front =>
    simp only [upcoming, unnamed, cons_append, cons.injEq] at all
    simp [← all.1]

end

end TokenStream

/-! ## Symbol tables -/

namespace SymbolTable

variable {id : EntityId}

/-- Whether every reference in a table is to something that exists. -/
structure Valid (t : SymbolTable) : Prop where
  entities : 9 < t.entities.size
  types : 4 < t.types.size
  type : ∀ e ∈ t.entities.toList, e.type.index < t.types.size
  locals : ∀ e ∈ t.entities.toList, ∀ id ∈ e.locals, id.index < t.entities.size
  elem : ∀ info ∈ t.types.infos.toList, ∀ a ∈ info.elem, a.index < t.types.size
  fields : ∀ info ∈ t.types.infos.toList, ∀ id ∈ info.fields, id.index < t.entities.size
  scopes : ∀ scope ∈ t.scopes, ∀ id ∈ scope.entries, id.index < t.entities.size

/-- Whether only the outermost scope is open, which has all that every program can use. -/
def OnlyOutermost (t : SymbolTable) : Prop :=
  ∃ added, t.scopes = initial.scopes.modifyHead fun scope =>
    { scope with entries := added ++ scope.entries }

theorem entity_mem {t : SymbolTable} (inside : t.contains id = true) :
    t.entity id ∈ t.entities.toList := by
  have inside : id.index < t.entities.size := by simpa [contains] using inside
  simp [entity, Array.getD, inside]

theorem info_mem_or {t : TypeTable} (a : TypeId) :
    t.info a ∈ t.infos.toList ∨ t.info a = default := by
  by_cases inside : a.index < t.infos.size
  · left
    simp [TypeTable.info, Array.getD, inside]
  · right
    simp [TypeTable.info, Array.getD, inside]

variable {t : SymbolTable}

section

variable (valid : t.Valid)

include valid

theorem Valid.contains_type (inside : t.contains id = true) :
    t.types.contains (t.entity id).type = true := by
  simpa [TypeTable.contains] using valid.type _ (entity_mem inside)

theorem Valid.contains_elem (a : TypeId) : t.types.contains (t.types.elemType a) = true := by
  have positive := valid.types
  rcases info_mem_or (t := t.types) a with member | same
  · cases elem : (t.types.info a).elem with
    | none =>
      simp only [TypeTable.elemType, elem, TypeTable.contains, TypeId.none, Option.getD_none,
        decide_eq_true_eq]
      omega
    | some b =>
      have := valid.elem _ member b (by simp [elem])
      simpa [TypeTable.elemType, elem, TypeTable.contains] using this
  · simp only [TypeTable.elemType, same, TypeTable.contains, TypeId.none, default,
      instInhabitedTypeInfo.default, Option.getD_none, decide_eq_true_eq]
    omega

theorem Valid.contains_field {a : TypeId} (member : id ∈ t.types.fields a) :
    t.contains id = true := by
  rcases info_mem_or (t := t.types) a with inside | same
  · simpa [contains] using valid.fields _ inside id member
  · simp [TypeTable.fields, same, default, instInhabitedTypeInfo.default] at member

theorem Valid.contains_basic {a : TypeId} (basic : a.index ≤ 4) : t.types.contains a = true := by
  have := valid.types
  simp only [TypeTable.contains, decide_eq_true_eq]
  omega

theorem Valid.contains_missing : t.contains missing = true :=
  decide_eq_true (Nat.lt_trans (by decide) valid.entities)

theorem Valid.contains_lookup {name : String} (found : t.lookup? name = some id) :
    t.contains id = true := by
  obtain ⟨scope, member, found⟩ := exists_of_findSome?_eq_some found
  simpa [contains] using valid.scopes scope member id (mem_of_find?_eq_some found)

theorem Valid.contains_parameter {id parameter : EntityId} (inside : t.contains id = true)
    (member : parameter ∈ (t.entity id).parameters) : t.contains parameter = true := by
  simpa [contains] using valid.locals _ (entity_mem inside) parameter (mem_of_mem_take member)

end

/-- Whether what an operand refers to exists. -/
structure Knows (t : SymbolTable) (x : Operand) : Prop where
  type : t.types.contains x.type = true
  method : ∀ id ∈ x.method, t.contains id = true

/-- Adding a type without fields keeps a table valid. -/
theorem Valid.addType (valid : t.Valid) {info : TypeInfo}
    (inside : ∀ a ∈ info.elem, t.types.contains a = true) (noFields : info.fields = []) :
    { t with types := (t.types.add info).2 : SymbolTable }.Valid := by
  have grown : (t.types.add info).2.size = t.types.size + 1 := by
    simp [TypeTable.add, TypeTable.size]
  have infos {other : TypeInfo} (member : other ∈ (t.types.add info).2.infos.toList) :
      other ∈ t.types.infos.toList ∨ other = info := by
    simpa [TypeTable.add] using member
  refine { valid with types := ?_, type := ?_, elem := ?_, fields := ?_ }
  · exact grown ▸ Nat.lt_succ_of_lt valid.types
  · exact fun e member => grown ▸ Nat.lt_succ_of_lt (valid.type e member)
  · intro other member a isElem
    rw [grown]
    rcases infos member with member | rfl
    · exact Nat.lt_succ_of_lt (valid.elem other member a isElem)
    · exact Nat.lt_succ_of_lt (by simpa [TypeTable.contains] using inside a isElem)
  · intro other member id isField
    rcases infos member with member | rfl
    · exact valid.fields other member id isField
    · simp [noFields] at isField

end SymbolTable

/-! ## Code -/

/-- Whether code consists of complete instructions. -/
def CodeBuffer.Complete (c : CodeBuffer) : Prop :=
  ∃ items, c.bytes.toList = Items.bytes 0 items

theorem CodeBuffer.Complete.assemble {c : CodeBuffer} (complete : c.Complete) (items : List Item) :
    (c.assemble items).Complete := by
  obtain ⟨front, bytes⟩ := complete
  have pc : c.pc = Items.size front := by
    rw [← Items.length_bytes 0, ← bytes]
    simp [CodeBuffer.pc]
  exact ⟨front ++ items, by rw [toList_assemble, bytes, Items.bytes_append, pc, Nat.zero_add]⟩

/-- The labels of the loops around a statement after more slots wait for the innermost one. -/
def noteSlots (exits : List Label) (slots : List Nat) : List Label :=
  match exits with
  | .pending old :: outer => .pending (slots ++ old) :: outer
  | exits => exits

@[simp] theorem noteSlots_nil (exits : List Label) : noteSlots exits [] = exits := by
  unfold noteSlots
  split <;> rfl

private theorem noteSlots_append (exits : List Label) (front back : List Nat) :
    noteSlots exits (front ++ back) = noteSlots (noteSlots exits back) front := by
  unfold noteSlots
  split <;> simp_all

/-! ## States -/

namespace Compiler

/-- Whether no problem was recorded. -/
def Clean (s : Compiler) : Prop := s.reporter.recorded = #[]

/-- What every state of a compilation satisfies. -/
structure Valid (s : Compiler) : Prop where
  table : s.table.Valid
  tokens : s.tokens.WellFormed
  /-- Reports are held back only after something was recorded. -/
  reporter : s.Clean → s.reporter.spacing ≤ s.reporter.distance
  method : ∀ id ∈ s.method, s.table.contains id = true
  exits : ∀ exit ∈ s.loopExits, exit.adr? = none
  code : s.code.Complete

/-- A state is valid at every depth. -/
theorem Valid.atDepth {s : Compiler} (valid : s.Valid) (depth : Nat) : { s with depth }.Valid :=
  { valid with }

/-- What compiling a part of a method body does to a state, the loops around it apart: it adds items
and perhaps array types. -/
structure Adds (s s' : Compiler) (items : List Item) : Prop where
  code : s'.code = s.code.assemble items
  entities : s'.table.entities = s.table.entities
  scopes : s'.table.scopes = s.table.scopes
  types : s.table.types.size ≤ s'.table.types.size
  limits : s'.limits = s.limits
  method : s'.method = s.method
  valid : s'.Valid

/-- What compiling a part of a method body does to a state: jumps that wait for the exit of the loop
around it are noted there. -/
structure Extends (s s' : Compiler) (items : List Item) : Prop extends Adds s s' items where
  exits : s'.loopExits = noteSlots s.loopExits (Items.slots .exit s.code.pc items)

variable {s s1 s2 : Compiler} {front back : List Item}

theorem Adds.trans (first : s.Adds s1 front) (second : s1.Adds s2 back) :
    s.Adds s2 (front ++ back) where
  code := by rw [second.code, first.code, CodeBuffer.assemble_append]
  entities := second.entities.trans first.entities
  scopes := second.scopes.trans first.scopes
  types := Nat.le_trans first.types second.types
  limits := second.limits.trans first.limits
  method := second.method.trans first.method
  valid := second.valid

theorem Adds.pc (adds : s.Adds s1 front) : s1.code.pc = s.code.pc + Items.size front := by
  rw [adds.code, CodeBuffer.pc_assemble]

theorem Extends.refl (valid : s.Valid) : s.Extends s [] where
  code := rfl
  entities := rfl
  scopes := rfl
  types := Nat.le_refl _
  limits := rfl
  method := rfl
  valid := valid
  exits := (noteSlots_nil _).symm

theorem Extends.trans (first : s.Extends s1 front) (second : s1.Extends s2 back) :
    s.Extends s2 (front ++ back) where
  toAdds := first.toAdds.trans second.toAdds
  exits := by rw [second.exits, first.exits, first.pc, Items.slots_append, noteSlots_append]

/-- How deep a state is nested does not matter to what is added to it. -/
theorem Extends.atDepth {inner outer : Nat} (extension : { s with depth := inner }.Extends s1 front) :
    s.Extends { s1 with depth := outer } front :=
  { extension with valid := extension.valid.atDepth outer }

section

variable (adds : s.Adds s1 front)

include adds

/-- A type that exists before a step exists after it. -/
theorem Adds.contains_type {a : TypeId} (inside : s.table.types.contains a = true) :
    s1.table.types.contains a = true := by
  have := adds.types
  simp only [TypeTable.contains, decide_eq_true_eq] at *
  omega

/-- An entity that exists before a step exists after it, unchanged. -/
theorem Adds.contains (id : EntityId) : s1.table.contains id = s.table.contains id := by
  simp only [SymbolTable.contains, adds.entities]

theorem Adds.entity (id : EntityId) : s1.table.entity id = s.table.entity id := by
  simp only [SymbolTable.entity, adds.entities]

theorem Adds.knows {x : Operand} (known : s.table.Knows x) : s1.table.Knows x where
  type := adds.contains_type known.type
  method id is := by
    rw [adds.contains]
    exact known.method id is

end

end Compiler

end MicroJava

import Mathlib.Data.List.Nodup
import MicroJava.Proofs.Translation.Methods

/-! # The slots of variables

The variables of a scope are numbered from zero on in the order of their declaration, and a scope has
each name once. Every step of a compilation without problems keeps this for all open scopes, so that
variables that are visible at the same time never share a slot.
-/

namespace MicroJava

open SymbolTable List

namespace Scope

variable {t u : SymbolTable} {s : Scope} {level : Nat} {id : EntityId}

/-- The variables that were declared in a scope, in order. -/
def slots (t : SymbolTable) (s : Scope) : List EntityId :=
  s.declarations.filter fun id => (t.entity id).kind == .var

/-- Whether the names of a scope are distinct and its variables numbered. -/
structure Orderly (t : SymbolTable) (level : Nat) (s : Scope) : Prop where
  inside : ∀ id ∈ s.entries, t.contains id = true
  distinct : (s.entries.map fun id => (t.entity id).name).Nodup
  count : s.varCount = (s.slots t).length
  slot : ∀ (i : Nat) (id : EntityId), (s.slots t)[i]? = some id →
    (t.entity id).adr = i ∧ (t.entity id).level = level

theorem slots_congr (same : ∀ id ∈ s.entries, (u.entity id).kind = (t.entity id).kind) :
    s.slots u = s.slots t := by
  refine filter_congr fun id member => ?_
  rw [same id (mem_reverse.mp member)]

theorem mem_entries_of_slots {i : Nat} (found : (s.slots t)[i]? = some id) :
    id ∈ s.entries ∧ (t.entity id).kind = .var := by
  have member := mem_filter.mp (mem_of_getElem? found)
  exact ⟨mem_reverse.mp member.1, by simpa using member.2⟩

/-- What an orderly scope depends on. -/
theorem Orderly.congr (orderly : s.Orderly t level)
    (inside : ∀ id ∈ s.entries, u.contains id = true)
    (kind : ∀ id ∈ s.entries, (u.entity id).kind = (t.entity id).kind)
    (name : ∀ id ∈ s.entries, (u.entity id).name = (t.entity id).name)
    (slot : ∀ id ∈ s.entries, (t.entity id).kind = .var →
      (u.entity id).adr = (t.entity id).adr ∧ (u.entity id).level = (t.entity id).level) :
    s.Orderly u level where
  inside := inside
  distinct := by
    rw [map_congr_left name]
    exact orderly.distinct
  count := by rw [slots_congr kind, orderly.count]
  slot i id found := by
    rw [slots_congr kind] at found
    obtain ⟨member, isVar⟩ := mem_entries_of_slots found
    obtain ⟨adr, level⟩ := slot id member isVar
    rw [adr, level]
    exact orderly.slot i id found

theorem Orderly.persists (orderly : s.Orderly t level) (persists : t.Persists u) :
    s.Orderly u level := by
  have same (id) (member : id ∈ s.entries) := persists.entity id (orderly.inside id member)
  exact orderly.congr (fun id member => persists.contains (orderly.inside id member))
    (fun id member => by rw [same id member]) (fun id member => by rw [same id member])
    (fun id member _ => by rw [same id member]; exact ⟨rfl, rfl⟩)

private theorem orderly_empty : ({} : Scope).Orderly t level :=
  ⟨by simp, by simp, rfl, by simp [slots, declarations]⟩

theorem mem_of_search {ids : List EntityId} {name : String} (found : t.search ids name = some id) :
    id ∈ ids ∧ (t.entity id).name = name :=
  ⟨mem_of_find?_eq_some found, by simpa using find?_some found⟩

/-- A variable has a slot in its scope. -/
theorem Orderly.exists_slot (orderly : s.Orderly t level) (member : id ∈ s.entries)
    (isVar : (t.entity id).kind = .var) :
    ∃ slot : Nat, (s.slots t)[slot]? = some id ∧ (t.entity id).adr = slot ∧
      (t.entity id).level = level := by
  have isSlot : id ∈ s.slots t :=
    mem_filter.mpr ⟨mem_reverse.mpr member, by simp [isVar]⟩
  obtain ⟨slot, found⟩ := mem_iff_getElem?.mp isSlot
  exact ⟨slot, found, orderly.slot slot id found⟩

/-- A name means the one entity of a scope that has it. -/
theorem Orderly.search (orderly : s.Orderly t level) (member : id ∈ s.entries) :
    t.search s.entries (t.entity id).name = some id := by
  cases found : t.search s.entries (t.entity id).name with
  | none =>
    have absent := find?_eq_none.mp found id member
    simp at absent
  | some other =>
    obtain ⟨isIn, same⟩ := mem_of_search found
    rw [inj_on_of_nodup_map orderly.distinct isIn member same]

theorem Orderly.distinct_slots (orderly : s.Orderly t level) :
    ((s.slots t).map fun id => (t.entity id).name).Nodup := by
  have distinct : (s.declarations.map fun id => (t.entity id).name).Nodup := by
    rw [declarations, map_reverse, nodup_reverse]
    exact orderly.distinct
  exact distinct.sublist (filter_sublist.map _)

variable {kind : EntityKind} {name : String} {type : TypeId}

/-- A declaration adds at most a variable. -/
theorem slots_enter (inside : ∀ id ∈ s.entries, t.contains id = true) :
    (s.insert t.next kind).slots (t.enter kind name type) =
      s.slots t ++ if kind = .var then [t.next] else [] := by
  have old : s.slots (t.enter kind name type) = s.slots t :=
    slots_congr fun id member => by rw [entity_enter (inside id member)]
  rw [← old]
  by_cases isVar : kind = .var <;>
    simp [slots, declarations, insert, kind_newEntity, isVar]

theorem Orderly.insert (orderly : s.Orderly t t.level) (outer : List Scope)
    (scopes : t.scopes = s :: outer) (fresh : t.Fresh name) :
    (s.insert t.next kind).Orderly (t.enter kind name type) t.level := by
  have old (id) (member : id ∈ s.entries) :
      (t.enter kind name type).entity id = t.entity id :=
    entity_enter (orderly.inside id member)
  refine ⟨?_, ?_, ?_, ?_⟩
  · intro id member
    rcases mem_cons.mp member with rfl | member
    · exact contains_enter.mpr (.inr rfl)
    · exact contains_enter.mpr (.inl (orderly.inside id member))
  · have absent : ∀ id ∈ s.entries, (t.entity id).name ≠ name := by
      simpa [SymbolTable.findLocal?, scopes, SymbolTable.search] using fresh.2
    have names : (s.entries.map fun id => ((t.enter kind name type).entity id).name) =
        s.entries.map fun id => (t.entity id).name :=
      map_congr_left fun id member => by rw [old id member]
    simp only [Scope.insert, map_cons, nodup_cons, names, entity_enter_next,
      name_newEntity]
    exact ⟨by simpa using absent, orderly.distinct⟩
  · rw [slots_enter orderly.inside]
    have count := orderly.count
    by_cases isVar : kind = .var <;> simp [Scope.insert, isVar, count]
  · intro i id found
    rw [slots_enter orderly.inside] at found
    rcases Nat.lt_or_ge i (s.slots t).length with early | late
    · rw [getElem?_append_left early] at found
      rw [old id (mem_entries_of_slots found).1]
      exact orderly.slot i id found
    · rw [getElem?_append_right late] at found
      by_cases isVar : kind = .var
      · obtain ⟨rfl, rfl⟩ : i = (s.slots t).length ∧ id = t.next := by
          simp only [isVar, if_true, getElem?_singleton] at found
          split at found
          · exact ⟨by omega, (Option.some.inj found).symm⟩
          · cases found
        rw [entity_enter_next]
        simp [SymbolTable.newEntity, isVar, SymbolTable.varCount, scopes, orderly.count]
      · simp [isVar] at found

end Scope

namespace SymbolTable

variable {t u : SymbolTable} {id : EntityId} {kind : EntityKind} {name : String} {type : TypeId}

/-- Whether every open scope is orderly. -/
def Orderly (t : SymbolTable) : Prop :=
  ∀ s outer, s :: outer <:+ t.scopes → s.Orderly t (outer.length - 1)

theorem mem_of_lookup (found : t.lookup? name = some id) : ∃ s ∈ t.scopes, id ∈ s.entries := by
  obtain ⟨s, open_, inScope⟩ := exists_of_findSome?_eq_some found
  exact ⟨s, open_, (Scope.mem_of_search inScope).1⟩

section

variable (orderly : t.Orderly)

include orderly

theorem Orderly.inside {s : Scope} (open_ : s ∈ t.scopes) (member : id ∈ s.entries) :
    t.contains id = true := by
  obtain ⟨front, outer, scopes⟩ := append_of_mem open_
  exact (orderly s outer ⟨front, scopes.symm⟩).inside id member

/-- Types do not matter. -/
theorem Orderly.types (types : TypeTable) : ({ t with types } : SymbolTable).Orderly := by
  intro s outer suffix
  obtain ⟨inside, distinct, count, slot⟩ := orderly s outer suffix
  exact ⟨inside, distinct, count, slot⟩

theorem Orderly.openScope : t.openScope.Orderly := by
  intro s outer suffix
  rcases suffix_cons_iff.mp suffix with same | suffix
  · obtain ⟨rfl, _⟩ := cons.inj same
    exact Scope.orderly_empty
  · exact (orderly s outer suffix).persists ((Persists.refl t).scopes _)

theorem Orderly.leave : t.leave.Orderly := by
  intro s outer suffix
  exact (orderly s outer (suffix.trans (tail_suffix _))).persists ((Persists.refl t).scopes _)

theorem Orderly.enter (fresh : t.Fresh name) : (t.enter kind name type).Orderly := by
  intro s outer suffix
  cases scopes : t.scopes with
  | nil => simp [SymbolTable.enter, scopes] at suffix
  | cons current rest =>
    simp only [SymbolTable.enter, scopes, modifyHead_cons] at suffix
    rcases suffix_cons_iff.mp suffix with same | suffix
    · obtain ⟨rfl, rfl⟩ := cons.inj same
      have level : t.level = outer.length - 1 := by simp [level, scopes]
      have current := orderly current outer (scopes ▸ suffix_rfl)
      rw [← level] at current ⊢
      exact current.insert outer scopes fresh
    · have suffix : s :: outer <:+ t.scopes := scopes ▸ suffix.trans (suffix_cons _ _)
      exact (orderly s outer suffix).persists (Persists.refl t).enter

end

/-- Whether a change of an entity keeps its name and, for a variable, its slot. -/
structure KeepsSlot (e e' : Entity) : Prop where
  kind : e'.kind = e.kind
  name : e'.name = e.name
  slot : e.kind = .var → e'.adr = e.adr ∧ e'.level = e.level

theorem Orderly.modify (orderly : t.Orderly) {f : Entity → Entity}
    (keeps : KeepsSlot (t.entity id) (f (t.entity id))) : (t.modify id f).Orderly := by
  intro s outer suffix
  have old := orderly s outer suffix
  have kept (other) (member : other ∈ s.entries) :
      KeepsSlot (t.entity other) ((t.modify id f).entity other) := by
    by_cases same : other = id
    · subst same
      rwa [entity_modify f (old.inside other member)]
    · rw [entity_modify_ne f same]
      exact ⟨rfl, rfl, fun _ => ⟨rfl, rfl⟩⟩
  exact old.congr (fun other member => by rw [contains_modify]; exact old.inside other member)
    (fun other member => (kept other member).kind) (fun other member => (kept other member).name)
    (fun other member => (kept other member).slot)

theorem hereditary_orderly : Hereditary Orderly where
  array _ _ orderly := orderly.types _
  variable_ _ _ _ fresh orderly := orderly.enter fresh

theorem Orderly.enterMethod (orderly : t.Orderly) (fresh : t.Fresh name) (base : Nat) :
    (t.enterMethod name type base).Orderly := by
  refine (orderly.enter fresh).modify ⟨rfl, rfl, fun isVar => ?_⟩
  rw [entity_enter_next, kind_newEntity] at isVar
  cases isVar

theorem initial_orderly : initial.Orderly := by
  intro s outer suffix
  rcases suffix_cons_iff.mp suffix with same | suffix
  · obtain ⟨rfl, rfl⟩ := cons.inj same
    have none : Scope.slots initial ⟨[len, ord, chr, ⟨3⟩, ⟨2⟩, ⟨1⟩], 0⟩ = [] := by decide
    exact ⟨by decide, by decide, by decide, by simp [none]⟩
  · simp at suffix

end SymbolTable

namespace Syntax

open SymbolTable

variable {t t' : SymbolTable} {limits : Limits}

theorem Program.start_orderly {p : Program} (fresh : initial.Fresh p.name) : p.start.Orderly :=
  (initial_orderly.enter fresh).openScope

theorem Parameters.Declare.orderly {method : EntityId} {ps : Option Parameters}
    (declares : Parameters.Declare method t ps t') (orderly : t.Orderly) : t'.Orderly := by
  refine declares.keeps hereditary_orderly (fun {u id _} _ keeps orderly => ?_) orderly
  obtain ⟨kind, name, slot⟩ := keeps (u.entity id)
  exact orderly.modify ⟨kind, name, fun _ => slot⟩

end Syntax

end MicroJava

import Mathlib.Logic.Basic
import MicroJava.Proofs.Translation.Table

/-! # Jumps and calls of compiled code

What the items of expressions and statements have in common, whatever they compute: expressions have
no jumps, calls lead to methods of the program, and the jumps of a statement lead to the beginning
of an item of the statement or to its end. Only array types are added to the symbol table.
-/

namespace MicroJava

open Items Operand List

/-! ## Items without transfers -/

/-- Whether an item is neither a jump nor a call. -/
def Item.isPlain : Item → Bool
  | plain _ _ _ => true
  | _ => false

namespace Item

@[simp] theorem isPlain_plain {op : Opcode} {operands : List Int}
    (proper : operands.length = op.widths.length ∧ op.isTransfer = false) :
    (plain op operands proper).isPlain = true := rfl

@[simp] theorem isPlain_const (value : Int) : (const value).isPlain = true := by
  fun_cases const value <;> rfl

@[simp] theorem isPlain_load (slot : Int) : (load slot).isPlain = true := by
  fun_cases load slot <;> rfl

@[simp] theorem isPlain_store (slot : Int) : (store slot).isPlain = true := by
  fun_cases store slot <;> rfl

@[simp] theorem isPlain_loadElement (elem : TypeId) : (loadElement elem).isPlain = true := by
  unfold loadElement
  split <;> rfl

@[simp] theorem isPlain_storeElement (elem : TypeId) : (storeElement elem).isPlain = true := by
  unfold storeElement
  split <;> rfl

@[simp] theorem isPlain_newArray (elem : TypeId) : (newArray elem).isPlain = true := rfl

end Item

/-- Whether items contain neither jumps nor calls. -/
def Items.Plain (items : List Item) : Prop := ∀ i ∈ items, i.isPlain = true

namespace Items

@[simp] theorem plain_nil : Plain [] := by simp [Plain]

@[simp] theorem plain_cons {i : Item} {items : List Item} :
    Plain (i :: items) ↔ i.isPlain = true ∧ Plain items := by
  simp [Plain]

@[simp] theorem plain_append {front back : List Item} :
    Plain (front ++ back) ↔ Plain front ∧ Plain back := by
  simp [Plain, or_imp, forall_and]

end Items

namespace Operand

variable {x : Operand}

theorem plain_loadItems (notMethod : x.kind ≠ .method) : Plain x.loadItems := by
  unfold loadItems
  cases kind : x.kind <;> simp_all

theorem plain_negateItems (notMethod : x.kind ≠ .method) : Plain x.negateItems := by
  unfold negateItems
  split <;> simp [plain_loadItems notMethod]

theorem kind_negated (notMethod : x.kind ≠ .method) : x.negated.kind ≠ .method := by
  unfold negated
  split
  · exact notMethod
  · simp [pushed]

@[simp] theorem plain_storeItems : Plain x.storeItems := by
  unfold storeItems
  cases x.kind <;> simp

@[simp] theorem plain_keepItems : Plain x.keepItems := by
  unfold keepItems
  cases x.kind <;> simp

theorem plain_stepItems (up : Bool) : Plain (x.stepItems up) := by
  unfold stepItems
  cases kind : x.kind with
  | staticVar | field | element =>
    have load := plain_loadItems (x := x) (by simp [kind])
    cases up <;> simp [load]
  | _ => simp

theorem kind_of_isVariable (storable : x.isVariable = true) : x.kind ≠ .method := by
  intro method
  simp [isVariable, method] at storable

end Operand

/-! ## Methods of the program -/

namespace SymbolTable

/-- Whether a table has what every table has. -/
def Based (t : SymbolTable) : Prop := initial.Persists t

/-- Whether an entity is a method of the program, not a predeclared one. -/
structure IsMethod (t : SymbolTable) (id : EntityId) : Prop where
  kind : (t.entity id).kind = .method
  declared : initial.entities.size ≤ id.index

theorem Widens.based {t u : SymbolTable} (widens : t.Widens u) (based : t.Based) : u.Based :=
  based.trans widens.persists

variable {t : SymbolTable} {id : EntityId}

/-- Only three methods are predeclared. -/
theorem Based.predeclared (based : t.Based) (kind : (t.entity id).kind = .method)
    (early : id.index < initial.entities.size) : id = chr ∨ id = ord ∨ id = len := by
  have inside : initial.contains id = true := by simpa [contains] using early
  rw [based.entity id inside] at kind
  have all : ∀ i < initial.entities.size, (initial.entity ⟨i⟩).kind = .method →
      (⟨i⟩ : EntityId) = chr ∨ (⟨i⟩ : EntityId) = ord ∨ (⟨i⟩ : EntityId) = len := by decide
  exact all id.index early kind

/-- No predeclared method yields an object. -/
theorem Based.isMethod_of_isClass (based : t.Based) (kind : (t.entity id).kind = .method)
    (isClass : t.types.isClass (t.entity id).type = true) : t.IsMethod id := by
  refine ⟨kind, Nat.le_of_not_lt fun early => ?_⟩
  have inside : initial.contains id = true := by simpa [contains] using early
  have all : ∀ i < initial.entities.size, (initial.entity ⟨i⟩).kind = .method →
      initial.types.contains (initial.entity ⟨i⟩).type = true ∧
        initial.types.isClass (initial.entity ⟨i⟩).type = false := by decide
  rw [based.entity id inside] at kind isClass
  obtain ⟨known, notClass⟩ := all id.index early kind
  simp only [TypeTable.isClass, TypeTable.kind] at isClass notClass
  rw [based.info _ known, notClass] at isClass
  cases isClass

theorem Based.isMethod_of_ne (based : t.Based) (kind : (t.entity id).kind = .method)
    (notChr : id ≠ chr) (notOrd : id ≠ ord) (notLen : id ≠ len) : t.IsMethod id := by
  refine ⟨kind, Nat.le_of_not_lt fun early => ?_⟩
  rcases based.predeclared kind early with rfl | rfl | rfl
  · exact notChr rfl
  · exact notOrd rfl
  · exact notLen rfl

/-- Whether an operand that is a method agrees with what the table knows about it. -/
def Names (t : SymbolTable) (x : Operand) : Prop :=
  x.kind = .method → ∃ id, x.method = some id ∧ (t.entity id).kind = .method ∧
    x.adr = (t.entity id).adr ∧ x.type = (t.entity id).type

theorem names_of_ne {x : Operand} (notMethod : x.kind ≠ .method) : t.Names x :=
  fun method => absurd method notMethod

theorem Widens.names {u : SymbolTable} {x : Operand} (widens : t.Widens u) (names : t.Names x) :
    u.Names x := by
  intro method
  obtain ⟨id, same, kind, adr, type⟩ := names method
  rw [← widens.entity] at kind adr type
  exact ⟨id, same, kind, adr, type⟩

theorem names_ofEntity (t : SymbolTable) (id : EntityId) :
    t.Names (ofEntity id (t.entity id)).result := by
  intro method
  have method : kindOf (t.entity id) = .method := method
  refine ⟨id, by simp [ofEntity, method], ?_, rfl, rfl⟩
  unfold kindOf at method
  cases kind : (t.entity id).kind with
  | method => rfl
  | var => simp only [kind] at method; split at method <;> cases method
  | _ => simp [kind] at method

end SymbolTable

/-! ## Expressions -/

/-- Whether items call methods of the program only and the table gains array types only. -/
structure CallsMethods (t : SymbolTable) (items : List Item) (t' : SymbolTable) : Prop where
  widens : t.Widens t'
  calls : t.Based → ∀ adr, .call adr ∈ items → ∃ id, t.IsMethod id ∧ (t.entity id).adr = adr

/-- What the items of every expression have in common. -/
structure Outlines (t : SymbolTable) (items : List Item) (t' : SymbolTable) : Prop
    extends CallsMethods t items t' where
  straight : Items.Straight items

variable {t t1 t2 : SymbolTable} {items front back : List Item}

namespace CallsMethods

theorem append (first : CallsMethods t front t1) (second : CallsMethods t1 back t2) :
    CallsMethods t (front ++ back) t2 where
  widens := first.widens.trans second.widens
  calls based adr member := by
    rcases mem_append.mp member with member | member
    · exact first.calls based adr member
    · obtain ⟨id, ⟨kind, declared⟩, same⟩ := second.calls (first.widens.based based) adr member
      rw [first.widens.entity] at kind same
      exact ⟨id, ⟨kind, declared⟩, same⟩

theorem jump (t : SymbolTable) (when? : Option Comparison) (target : Destination) :
    CallsMethods t [.jump when? target] t :=
  ⟨.refl, by simp⟩

theorem resolve (callsMethods : CallsMethods t items t1) (label : OpenLabel) (adr : Nat) :
    CallsMethods t (resolve label adr items) t1 where
  widens := callsMethods.widens
  calls based target member := by
    obtain ⟨i, inside, same⟩ := mem_map.mp member
    cases i with
    | call _ => exact callsMethods.calls based target (same ▸ inside)
    | plain | jump => simp [Item.resolve] at same

end CallsMethods

namespace Outlines

theorem append (first : Outlines t front t1) (second : Outlines t1 back t2) :
    Outlines t (front ++ back) t2 where
  toCallsMethods := first.toCallsMethods.append second.toCallsMethods
  straight := straight_append.mpr ⟨first.straight, second.straight⟩

theorem plain (plain : Plain items) : Outlines t items t where
  widens := .refl
  straight i member := by
    have := plain i member
    cases i <;> simp_all [Item.isPlain, Item.isJump]
  calls _ adr member := by
    have := plain _ member
    simp [Item.isPlain] at this

theorem array (outlines : Outlines t items t1) (elem : TypeId) :
    Outlines t items (t1.addArray elem).2 :=
  ⟨⟨outlines.widens.array elem, outlines.calls⟩, outlines.straight⟩

theorem call {id : EntityId} {adr : Int} (isMethod : t.Based → t.IsMethod id)
    (same : (t.entity id).adr = adr) : Outlines t [.call adr] t where
  widens := .refl
  straight := by simp
  calls based other member := by
    simp only [mem_singleton, Item.call.injEq] at member
    exact ⟨id, isMethod based, same.trans member.symm⟩

end Outlines

namespace Syntax

open SymbolTable

/-- Whether a relation for expressions gives items of which `Outlines` holds, and no operand that is
a method. -/
def Outlining (rule : Translation Expr) : Prop :=
  ∀ ⦃t e items x t'⦄, rule t e items x t' → Outlines t items t' ∧ x.kind ≠ .method

variable {nested : Translation Expr} {t t' : SymbolTable} {items : List Item} {x y : Operand}

section

variable [inner : Fact (Outlining nested)]

theorem Selector.Apply.outlines {selectors : List Selector}
    (applies : Selector.Apply nested t x selectors items y t') (names : t.Names x) :
    Outlines t items t' ∧ t'.Names y := by
  induction applies with
  | nil => exact ⟨.plain (by simp), names⟩
  | @field t x name id rest items y t' isClass valued found more ih =>
    obtain ⟨rest, names'⟩ := ih (names_of_ne (by simp))
    refine ⟨.append ?_ rest, names'⟩
    by_cases method : x.kind = .method
    · obtain ⟨id, _, kind, adr, type⟩ := names method
      rw [type] at isClass
      simpa [loadItems, method] using
        Outlines.call (fun based => based.isMethod_of_isClass kind isClass) adr.symm
    · exact .plain (plain_loadItems method)
  | index storable inner_ int valued isArray more ih =>
    obtain ⟨first, notMethod⟩ := inner.out inner_
    obtain ⟨rest, names'⟩ := ih (names_of_ne (by simp))
    have load := plain_loadItems (kind_of_isVariable storable)
    exact ⟨(((Outlines.plain load).append first).append
      (.plain (plain_loadItems notMethod))).append rest, names'⟩

theorem Designator.Compiles.outlines {d : Designator} (compiles : d.Compiles nested t items x t') :
    Outlines t items t' ∧ t'.Names x := by
  obtain ⟨found, denotes, selected⟩ := compiles
  exact selected.outlines (names_ofEntity t _)

theorem Expr.Fit.outlines {parameters : List EntityId} {es : List Expr}
    (fit : Expr.Fit nested t parameters es items t') : Outlines t items t' := by
  induction fit with
  | nil => exact .plain (by simp)
  | cons inner_ valued fits more ih =>
    obtain ⟨first, notMethod⟩ := inner.out inner_
    exact (first.append (.plain (plain_loadItems notMethod))).append
      (ih)

theorem Expr.Fill.outlines {index : Nat} {elem : TypeId} {es : List Expr}
    (fill : Expr.Fill nested t index elem es items t') : Outlines t items t' := by
  induction fill with
  | nil => exact .plain (by simp)
  | cons inner_ decided fits valued more ih =>
    obtain ⟨first, notMethod⟩ := inner.out inner_
    exact ((((Outlines.plain (by simp)).append first).append
      (.plain (plain_loadItems notMethod))).append (.plain (by simp))).append
      (ih)

theorem VarArguments.Collect.outlines {parameter : Option EntityId} {extra : Option VarArguments}
    (collect : VarArguments.Collect nested t parameter extra items t') : Outlines t items t' := by
  cases collect with
  | none => exact .plain (by simp)
  | omitted => exact .plain (by simp)
  | filled fill count => exact (Outlines.plain (by simp)).append (fill.outlines)

theorem Arguments.Pass.outlines {id : EntityId} {args : Arguments}
    (pass : args.Pass nested t id items t') : Outlines t items t' := by
  obtain ⟨fit, collect⟩ := pass
  have first := fit.outlines
  exact first.append (collect.outlines)

private theorem outlines_callItems (names : t.Names x) (isMethod : x.kind = .method) {id : EntityId}
    (method : x.method = some id) : Outlines t (x.callItems id) t := by
  obtain ⟨other, same, kind, adr, _⟩ := names isMethod
  rw [method] at same
  cases same
  unfold callItems
  split
  · exact .plain (by simp)
  · next notChar =>
    obtain ⟨notChr, notOrd⟩ := not_or.mp notChar
    split
    · exact .plain (by simp)
    · next notLen =>
      exact .call (fun based => based.isMethod_of_ne kind notChr notOrd notLen) adr.symm

theorem Factor.Compiles.outlines {f : Factor} (compiles : f.Compiles nested t items x t') :
    Outlines t items t' ∧ x.kind ≠ .method := by
  cases compiles with
  | value designator =>
    refine ⟨designator.outlines.1, ?_⟩
    unfold asValue
    split
    · simp
    · assumption
  | call designator isMethod method result arguments =>
    obtain ⟨first, names⟩ := designator.outlines
    have second := arguments.outlines
    have called := outlines_callItems (second.widens.names names) isMethod method
    exact ⟨(first.append second).append called, by simp [pushed]⟩
  | number => exact ⟨.plain (by simp), by simp [Operand.number]⟩
  | character => exact ⟨.plain (by simp), by simp [Operand.character]⟩
  | object => exact ⟨.plain (by simp), by simp [onStack]⟩
  | array found isType inner_ int valued =>
    obtain ⟨first, notMethod⟩ := inner.out inner_
    exact ⟨((first.append (.plain (plain_loadItems notMethod))).append
      (.plain (by simp))).array _, by simp [onStack]⟩
  | paren inner_ => exact inner.out inner_

theorem Chained.widens {Op φ : Type} {item : Op → Item} {operand : Translation φ}
    (operands : ∀ ⦃t e items x t'⦄, operand t e items x t' → t.Widens t') {rest : List (Op × φ)}
    (chained : Chained item operand t x rest items y t') : t.Widens t' := by
  induction chained with
  | nil => exact .refl
  | cons _ inner_ _ _ _ ih => exact (operands inner_).trans ih

theorem Chained.outlines {Op φ : Type} {item : Op → Item} {operand : Translation φ}
    (plain : ∀ op, (item op).isPlain = true)
    (inner : ∀ ⦃t e items x t'⦄, operand t e items x t' → Outlines t items t' ∧ x.kind ≠ .method)
    {rest : List (Op × φ)} (chained : Chained item operand t x rest items y t')
    (notMethod : x.kind ≠ .method) : Outlines t items t' ∧ y.kind ≠ .method := by
  induction chained with
  | nil => exact ⟨.plain (by simp), notMethod⟩
  | cons valued inner_ ints valued' more ih =>
    obtain ⟨first, notMethod'⟩ := inner inner_
    obtain ⟨rest, last⟩ := ih (by simp [pushed])
    exact ⟨((((Outlines.plain (plain_loadItems notMethod)).append first).append
      (.plain (plain_loadItems notMethod'))).append (.plain (by simp [plain]))).append rest,
      last⟩

theorem MulOp.isPlain_item (op : MulOp) : op.item.isPlain = true := by
  cases op <;> rfl

theorem AddOp.isPlain_item (op : AddOp) : op.item.isPlain = true := by
  cases op <;> rfl

theorem Term.Compiles.outlines {e : Term} (compiles : e.Compiles nested t items x t') :
    Outlines t items t' ∧ x.kind ≠ .method := by
  obtain ⟨first_, chained⟩ := compiles
  obtain ⟨first, notMethod⟩ := first_.outlines
  obtain ⟨rest, last⟩ := chained.outlines MulOp.isPlain_item
    (fun _ _ _ _ _ factor => factor.outlines) notMethod
  exact ⟨first.append rest, last⟩

theorem Expr.CompilesIn.outlines : Outlining (Expr.CompilesIn nested) := by
  intro t e items x t' compiles
  have terms : ∀ ⦃t e items x t'⦄, Term.Compiles nested t e items x t' →
      Outlines t items t' ∧ x.kind ≠ .method := fun _ _ _ _ _ term => term.outlines
  cases compiles with
  | positive first_ chained =>
    obtain ⟨first, notMethod⟩ := first_.outlines
    obtain ⟨rest, last⟩ := chained.outlines AddOp.isPlain_item terms
      notMethod
    exact ⟨first.append rest, last⟩
  | negative first_ int valued chained =>
    obtain ⟨first, notMethod⟩ := first_.outlines
    obtain ⟨rest, last⟩ := chained.outlines AddOp.isPlain_item terms
      (kind_negated notMethod)
    exact ⟨(first.append (.plain (plain_negateItems notMethod))).append rest, last⟩

end

theorem Expr.Compiles.outlines (levels : Nat) : Outlining (Expr.Compiles levels) := by
  induction levels with
  | zero => exact fun _ _ _ _ _ impossible => impossible.elim
  | succ levels ih =>
    have : Fact (Outlining (Expr.Compiles levels)) := ⟨ih⟩
    exact Expr.CompilesIn.outlines

instance {levels : Nat} : Fact (Outlining (Expr.Compiles levels)) := ⟨Expr.Compiles.outlines levels⟩

theorem Expr.Compiles.outline {levels : Nat} {e : Expr}
    (compiles : Expr.Compiles levels t e items x t') : Outlines t items t' ∧ x.kind ≠ .method :=
  Expr.Compiles.outlines levels compiles

end Syntax

/-! ## Where jumps lead -/

/-- Whether a jump leads to an address of which `inside` holds, or waits for one of some labels. -/
def Destination.Within (labels : List OpenLabel) (inside : Nat → Prop) : Destination → Prop
  | address adr => inside adr
  | waiting label => label ∈ labels

namespace Items

/-- Whether an item begins at an address, or the items end there. -/
def Boundary (base : Nat) (items : List Item) (adr : Nat) : Prop :=
  ∃ front back, items = front ++ back ∧ adr = base + size front

variable {base adr : Nat} {labels more : List OpenLabel} {inside wider : Nat → Prop}
  {items front back : List Item} {label : OpenLabel}

private theorem boundary_start : Boundary base items base := ⟨[], items, rfl, rfl⟩

private theorem boundary_end (same : adr = base + size items) : Boundary base items adr :=
  ⟨items, [], by simp, same⟩

theorem Boundary.append_right (boundary : Boundary base front adr) (back : List Item) :
    Boundary base (front ++ back) adr := by
  obtain ⟨before, behind, rfl, rfl⟩ := boundary
  exact ⟨before, behind ++ back, by simp, rfl⟩

theorem Boundary.append_left (boundary : Boundary (base + size front) back adr) :
    Boundary base (front ++ back) adr := by
  obtain ⟨before, behind, rfl, rfl⟩ := boundary
  exact ⟨front ++ before, behind, by simp, by simp [Nat.add_assoc]⟩

theorem Boundary.resolve (boundary : Boundary base items adr) (label : OpenLabel) (target : Nat) :
    Boundary base (resolve label target items) adr := by
  obtain ⟨before, behind, rfl, rfl⟩ := boundary
  exact ⟨_, _, resolve_append label target before behind, by simp⟩

/-- Whether every jump leads to an address of which `inside` holds, or waits for one of some
labels. -/
def Leads (labels : List OpenLabel) (inside : Nat → Prop) (items : List Item) : Prop :=
  ∀ when? target, .jump when? target ∈ items → target.Within labels inside

theorem leads_append :
    Leads labels inside (front ++ back) ↔ Leads labels inside front ∧ Leads labels inside back := by
  simp only [Leads, mem_append, or_imp, forall_and]

theorem Straight.leads (straight : Straight items) : Leads labels inside items := by
  intro when? target member
  have := straight _ member
  simp [Item.isJump] at this

theorem leads_jump {when? : Option Comparison} {target : Destination} :
    Leads labels inside [.jump when? target] ↔ target.Within labels inside := by
  simp [Leads]

theorem Leads.mono (leads : Leads labels inside items) (subset : labels ⊆ more)
    (weaker : ∀ adr, inside adr → wider adr) : Leads more wider items := by
  intro when? target member
  have within := leads when? target member
  cases target with
  | address adr => exact weaker adr within
  | waiting label => exact subset within

theorem Leads.resolve (leads : Leads (label :: labels) inside items) (holds : inside adr) :
    Leads labels inside (resolve label adr items) := by
  intro when? target member
  obtain ⟨i, isItem, same⟩ := mem_map.mp member
  cases i with
  | plain | call => simp [Item.resolve] at same
  | jump when target =>
    simp only [Item.resolve, Item.jump.injEq] at same
    obtain ⟨_, rfl⟩ := same
    have within := leads _ _ isItem
    cases target with
    | address adr => exact within
    | waiting other =>
      simp only [Destination.resolve]
      split
      · exact holds
      · next different =>
        exact (mem_cons.mp within).resolve_left fun same => different same.symm

/-- Items whose jumps lead to their own boundaries, one after the other. -/
theorem Leads.append (first : Leads labels (Boundary base front) front)
    (second : Leads labels (Boundary (base + size front) back) back) :
    Leads labels (Boundary base (front ++ back)) (front ++ back) :=
  leads_append.mpr ⟨first.mono (Subset.refl _) fun _ boundary => boundary.append_right back,
    second.mono (Subset.refl _) fun _ boundary => boundary.append_left⟩

/-- A jump behind items leads back to where they begin. -/
theorem Leads.append_back (leads : Leads labels (Boundary base items) items) :
    Leads labels (Boundary base (items ++ [.jump none (.address base)]))
      (items ++ [.jump none (.address base)]) :=
  leads_append.mpr ⟨leads.mono (Subset.refl _) fun _ boundary => boundary.append_right _,
    leads_jump.mpr boundary_start⟩

/-- Items whose jumps lead to their own boundaries after a label got its place among them. -/
theorem Leads.close (leads : Leads (label :: labels) (Boundary base items) items)
    (boundary : Boundary base items adr) :
    Leads labels (Boundary base (Items.resolve label adr items)) (Items.resolve label adr items) :=
  (leads.resolve boundary).mono (Subset.refl _) fun _ boundary => boundary.resolve label adr

end Items

namespace Syntax

open SymbolTable

variable {nested : Translation Expr} [inner : Fact (Outlining nested)]
  {stmtRule : StmtTranslation} {base : Nat} {place : Place} {op : Comparison} {c : Disjunction}

/-! ## Conditions -/

theorem Compare.Compiles.outlines {c : Compare} (compiles : Compare.Compiles nested t c items t1) :
    Outlines t items t1 := by
  obtain ⟨left, _, right, _, _, _⟩ := compiles
  obtain ⟨first, notMethod⟩ := inner.out left
  obtain ⟨second, notMethod'⟩ := inner.out right
  exact (first.append (.plain (plain_loadItems notMethod))).append
    (second.append (.plain (plain_loadItems notMethod')))

theorem Conjunction.Compiles.leads {c : Conjunction}
    (compiles : Conjunction.Compiles nested t c items op t1) :
    CallsMethods t items t1 ∧ Leads [.fails] (fun _ => False) items := by
  induction compiles with
  | single compare =>
    have outlines := compare.outlines
    exact ⟨outlines.toCallsMethods, outlines.straight.leads⟩
  | and front compare ih =>
    obtain ⟨calls, leads⟩ := ih
    have outlines := compare.outlines
    refine ⟨(calls.append (.jump _ _ _)).append outlines.toCallsMethods, ?_⟩
    simp only [leads_append, leads_jump]
    exact ⟨⟨leads, mem_singleton.mpr rfl⟩, outlines.straight.leads⟩

theorem Disjunction.Compiles.leads (compiles : c.Compiles nested t base items op t1) :
    CallsMethods t items t1 ∧ Items.Leads [.fails, .holds] (Items.Boundary base items) items := by
  induction compiles with
  | single conjunction =>
    obtain ⟨calls, leads⟩ := conjunction.leads
    exact ⟨calls, leads.mono (by simp) fun _ impossible => impossible.elim⟩
  | @or _ _ items1 op1 _ _ items2 _ _ front conjunction ih =>
    obtain ⟨calls, leads⟩ := ih
    obtain ⟨calls', leads'⟩ := conjunction.leads
    refine ⟨((calls.append (.jump _ _ _)).resolve _ _).append calls', ?_⟩
    have alternative : Items.Leads [.fails, .holds]
        (Items.Boundary base (items1 ++ [.jump (some op1) (.waiting .holds)]))
        (items1 ++ [.jump (some op1) (.waiting .holds)]) :=
      leads.append (Items.leads_jump.mpr (by simp [Destination.Within]))
    refine .append ((alternative.close ?_).mono (by simp) fun _ inside => inside)
      (leads'.mono (by simp) fun _ impossible => impossible.elim)
    exact Items.boundary_end (by simp [Nat.add_assoc])

theorem guardItems_leads (compiles : c.Compiles nested t base items op t1) :
    CallsMethods t (guardItems base items op) t1 ∧
      Items.Leads [.fails] (Items.Boundary base (guardItems base items op))
        (guardItems base items op) := by
  obtain ⟨calls, leads⟩ := compiles.leads
  refine ⟨(calls.append (.jump _ _ _)).resolve _ _, .close ?_ ?_⟩
  · exact (leads.append (Items.leads_jump.mpr (by simp [Destination.Within]))).mono (by simp)
      fun _ inside => inside
  · exact Items.boundary_end (by simp [Nat.add_assoc])

/-! ## Statements -/

/-- What the items of every statement have in common. -/
structure Contained (place : Place) (t : SymbolTable) (base : Nat) (items : List Item)
    (t' : SymbolTable) : Prop extends CallsMethods t items t' where
  leads : Items.Leads place.exits (Items.Boundary base items) items

/-- Whether a relation for statements gives items of which `Contained` holds. -/
def Containing (rule : StmtTranslation) : Prop :=
  ∀ ⦃place t base s items t'⦄, rule place t base s items t' →
    Contained place t base items t'

theorem Contained.of_outlines (outlines : Outlines t items t1) : Contained place t base items t1 :=
  ⟨outlines.toCallsMethods, outlines.straight.leads⟩

theorem Stmt.Sequence.contained (rule : Containing stmtRule) {body : List Stmt}
    (sequence : Stmt.Sequence stmtRule place t base body items t1) :
    Contained place t base items t1 := by
  induction sequence with
  | nil => exact .of_outlines (.plain (by simp))
  | cons first more ih =>
    have head := rule first
    have tail := ih
    exact ⟨head.toCallsMethods.append tail.toCallsMethods, head.leads.append tail.leads⟩

private theorem guarded_leads (rule : Containing stmtRule) {body : Stmt} {items1 items2 : List Item}
    (condition : c.Compiles nested t base items1 op t1)
    (then_ : stmtRule place t1 (base + size items1 + 3) body items2 t2) :
    CallsMethods t (guardItems base items1 op ++ items2) t2 ∧
      Leads (.fails :: place.exits)
        (Boundary base (guardItems base items1 op ++ items2))
        (guardItems base items1 op ++ items2) := by
  obtain ⟨calls, leads⟩ := guardItems_leads condition
  have branch := rule then_
  refine ⟨calls.append branch.toCallsMethods, ?_⟩
  refine .append (leads.mono (by simp) fun _ inside => inside) ?_
  rw [size_guardItems, ← Nat.add_assoc]
  exact branch.leads.mono (by simp) fun _ inside => inside

theorem UpdateOp.isPlain_item (op : UpdateOp) : op.item.isPlain = true := by
  cases op with
  | add op => exact op.isPlain_item
  | mul op => exact op.isPlain_item

theorem Stmt.CompilesIn.contained (rule : Containing stmtRule) :
    Containing (Stmt.CompilesIn stmtRule nested) := by
  intro place t base s items t' compiles
  cases compiles with
  | assign designator value storable valued assignable =>
    obtain ⟨first, _⟩ := designator.outlines
    obtain ⟨second, notMethod⟩ := inner.out value
    exact .of_outlines ((first.append second).append
      (.plain (by simp [plain_loadItems notMethod])))
  | update designator value storable valued ints =>
    obtain ⟨first, _⟩ := designator.outlines
    obtain ⟨second, notMethod⟩ := inner.out value
    have load := plain_loadItems (kind_of_isVariable storable)
    exact .of_outlines ((((((first.append (.plain (by simp))).append (.plain load)).append
      second).append (.plain (plain_loadItems notMethod))).append
      (.plain (by simp [UpdateOp.isPlain_item]))).append (.plain (by simp)))
  | step designator storable int =>
    obtain ⟨first, _⟩ := designator.outlines
    exact .of_outlines (first.append (.plain (plain_stepItems _)))
  | call designator isMethod method arguments =>
    obtain ⟨first, names⟩ := designator.outlines
    have second := arguments.outlines
    have called := outlines_callItems (second.widens.names names) isMethod method
    refine .of_outlines (((first.append second).append called).append (.plain ?_))
    split <;> simp
  | ifThen condition then_ =>
    obtain ⟨calls, leads⟩ := guarded_leads rule condition then_
    exact ⟨calls.resolve _ _, leads.close (Items.boundary_end (by simp [Nat.add_assoc]))⟩
  | ifElse condition then_ else_ =>
    obtain ⟨calls, leads⟩ := guarded_leads rule condition then_
    have branch := rule else_
    refine ⟨(((calls.append (.jump _ _ _)).resolve _ _).append branch.toCallsMethods).resolve _ _,
      Items.Leads.close (.append ?_ ?_)
        (Items.boundary_end (by simp [Nat.add_assoc]))⟩
    · refine .close (.append (leads.mono (by simp) fun _ inside => inside) ?_)
        (Items.boundary_end (by simp [Nat.add_assoc]))
      exact Items.leads_jump.mpr (by simp [Destination.Within])
    · simp only [Items.size_resolve, Items.size_append, size_guardItems, Items.size_cons,
        Item.size_jump, Items.size_nil, ← Nat.add_assoc, Nat.add_zero]
      exact branch.leads.mono (by simp) fun _ inside => inside
  | loop condition body_ =>
    obtain ⟨calls, leads⟩ := guarded_leads rule condition body_
    have leads : Items.Leads (.exit :: .fails :: place.exits) _ _ :=
      leads.mono (by simp [Place.exits]) fun _ inside => inside
    refine ⟨((calls.append (.jump _ _ _)).resolve _ _).resolve _ _,
      (Items.Leads.close leads.append_back ?_).close ?_⟩
    · exact Items.boundary_end (by simp [Nat.add_assoc])
    · exact Items.boundary_end (by simp [Nat.add_assoc])
  | leave inLoop =>
    exact ⟨.jump _ _ _, Items.leads_jump.mpr (by simp [Destination.Within, Place.exits, inLoop])⟩
  | yieldNothing void => exact .of_outlines (.plain (by simp [returnItems, CodeBuffer.finishItems]))
  | yieldValue value valued result assignable =>
    obtain ⟨first, notMethod⟩ := inner.out value
    exact .of_outlines ((first.append (.plain (plain_loadItems notMethod))).append
      (.plain (by simp [returnItems, CodeBuffer.finishItems])))
  | read designator storable readable =>
    obtain ⟨first, _⟩ := designator.outlines
    refine .of_outlines (first.append (.plain ?_))
    split <;> simp
  | print value valued printable =>
    obtain ⟨first, notMethod⟩ := inner.out value
    refine .of_outlines ((first.append (.plain (plain_loadItems notMethod))).append
      (.plain ?_))
    split <;> simp
  | block sequence => exact sequence.contained rule
  | empty => exact .of_outlines (.plain (by simp))

theorem Stmt.Compiles.contained (levels : Nat) : Containing (Stmt.Compiles levels) := by
  induction levels with
  | zero => exact fun _ _ _ _ _ _ impossible => impossible.elim
  | succ levels ih => exact Stmt.CompilesIn.contained ih

end Syntax

end MicroJava

import MicroJava.Proofs.Storage.Access
import MicroJava.Proofs.Storage.Item
import MicroJava.Proofs.Verification.Frames

/-! # What accesses compile to

The instructions of a method body that access storage are, one by one and in order, what the
accesses in the body stand for. A name means the variable at its place among the declarations, and a
field the one at its place in the class of the designator in front of it.
-/

namespace MicroJava

open Syntax Items List

namespace SymbolTable

variable {t u : SymbolTable}

/-- The names of the fields of a class, in the order of their declaration. -/
def fieldNames (t : SymbolTable) (a : TypeId) : List String :=
  (t.types.fields a).map fun id => (t.entity id).name

/-- Whether a type is the class that is declared under a name. -/
def IsClassOf (t : SymbolTable) (name : String) (a : TypeId) : Prop :=
  ∃ id, (t.entity id).kind = .type ∧ (t.entity id).name = name ∧ (t.entity id).type = a ∧
    t.types.isClass a = true

/-- The type of what a selector selects from a value of a type. -/
def selectedType (t : SymbolTable) (a : TypeId) : Selector → TypeId
  | .field name =>
    (t.search (t.types.fields a).reverse name).elim .none fun id => (t.entity id).type
  | .index _ => t.types.elemType a

/-- The type of a designator. -/
def designatorType (t : SymbolTable) : Designator → TypeId
  | .mk name selectors =>
    selectors.foldl t.selectedType ((t.lookup? name).elim .none fun id => (t.entity id).type)

private theorem designatorType_append (t : SymbolTable) (name : String) (selectors : List Selector)
    (last : Selector) : t.designatorType (.mk name (selectors ++ [last])) =
      t.selectedType (t.designatorType (.mk name selectors)) last := by
  simp only [designatorType, foldl_append, foldl_cons, foldl_nil]

theorem Widens.fields (widens : t.Widens u) (a : TypeId) : u.types.fields a = t.types.fields a := by
  induction widens with
  | refl => rfl
  | array elem _ ih => exact (TypeTable.fields_add rfl a).trans ih

theorem Widens.search (widens : t.Widens u) (ids : List EntityId) (name : String) :
    u.search ids name = t.search ids name := by
  simp only [SymbolTable.search, widens.entity]

end SymbolTable

/-! ## Accesses -/

/-- What is declared where the body of a method is compiled. -/
structure Surroundings where
  /-- The parameters and variables of the method, in the order of their declaration. -/
  locals : List String
  /-- The global variables, in the order of their declaration. -/
  globals : List String
  /-- The symbol table behind the statements. -/
  table : SymbolTable

/-- The location that a designator denotes. Constants and methods have none, and elements of arrays
have none that an instruction names. -/
inductive Syntax.Designator.Denotes (v : Surroundings) : Designator → Option Location → Prop where
  | localVar {name} {slot : Nat} (declared : v.locals[slot]? = some name) :
      Denotes v (.mk name []) (some (.localVar slot))
  | staticVar {name} {slot : Nat} (visible : name ∉ v.locals)
      (declared : v.globals[slot]? = some name) : Denotes v (.mk name []) (some (.staticVar slot))
  | other {name} (notLocal : name ∉ v.locals) (notGlobal : name ∉ v.globals) :
      Denotes v (.mk name []) none
  | field {name selectors a field} {index : Nat}
      (typed : v.table.designatorType (.mk name selectors) = a)
      (isClass : v.table.types.isClass a = true)
      (declared : (v.table.fieldNames a)[index]? = some field) :
      Denotes v (.mk name (selectors ++ [.field field])) (some (.field index))
  | element {name selectors e} : Denotes v (.mk name (selectors ++ [.index e])) none

/-- What is done for an access. -/
inductive Syntax.Access.Performs (v : Surroundings) : Access → List Storage → Prop where
  | read {d location?} (denotes : Designator.Denotes v d location?) :
      Performs v (.read d) (location?.elim [] Location.reads)
  | write {d location?} (denotes : Designator.Denotes v d location?) :
      Performs v (.write d) (location?.elim [] Location.writes)
  | step {d location?} {up : Bool} (denotes : Designator.Denotes v d location?) :
      Performs v (.step d up) (location?.elim [] (Location.steps (if up then 1 else -1)))
  | create {name id} (visible : v.table.lookup? name = some id)
      (isClass : v.table.IsClassOf name (v.table.entity id).type) :
      Performs v (.create name) [.new (v.table.fieldNames (v.table.entity id).type).length]

/-- Whether items do with storage what accesses stand for. -/
def Traces (v : Surroundings) (accesses : List Access) (items : List Item) : Prop :=
  ∃ steps, Forall₂ (Access.Performs v) accesses steps ∧ Items.storage items = steps.flatten

namespace Traces

variable {v : Surroundings} {accesses more : List Access} {items front back : List Item}

theorem none (none : storage items = []) : Traces v [] items := ⟨[], .nil, none⟩

theorem one {access : Access} (performs : access.Performs v (storage items)) :
    Traces v [access] items := ⟨_, .cons performs .nil, by simp⟩

theorem append (first : Traces v accesses front) (second : Traces v more back) :
    Traces v (accesses ++ more) (front ++ back) := by
  obtain ⟨steps, performs, storage⟩ := first
  obtain ⟨steps', performs', storage'⟩ := second
  exact ⟨steps ++ steps', rel_append performs performs', by simp [storage, storage']⟩

theorem behind (traces : Traces v accesses front) (none : storage back = []) :
    Traces v accesses (front ++ back) := by
  simpa using traces.append (.none none)

theorem before (traces : Traces v accesses back) (none : storage front = []) :
    Traces v accesses (front ++ back) := by
  simpa using (Traces.none none).append traces

theorem resolve (traces : Traces v accesses items) (label : OpenLabel) (adr : Nat) :
    Traces v accesses (resolve label adr items) := by
  unfold Traces
  rwa [storage_resolve]

theorem jump (traces : Traces v accesses items) (when? : Option Comparison) (target : Destination) :
    Traces v accesses (items ++ [.jump when? target]) := traces.behind rfl

end Traces

/-! ## Operands -/

namespace Operand

variable {x : Operand} {location? : Option Location}

theorem At.asValue (located : x.At location?) : x.asValue.At location? := by
  unfold Operand.asValue
  split
  · next method =>
    cases located with
    | other => exact .other (by simp) (by simp) (by simp)
    | _ kind => simp [method] at kind
  · exact located

@[simp] theorem storage_callItems (x : Operand) (id : EntityId) :
    storage (x.callItems id) = [] := by
  unfold callItems
  split
  · rfl
  · split <;> rfl

private theorem storage_negateItems (x : Operand) :
    storage (x.negateItems ++ x.negated.loadItems) = storage x.loadItems := by
  unfold negateItems negated
  split
  · next con => simp [loadItems, con]
  · simp [loadItems, pushed, Opcode.storage?, Opcode.loadSlot?, Opcode.storeSlot?]

end Operand

section

variable {v : Surroundings} {d : Designator} {x : Operand} {location? : Option Location}
  (denotes : d.Denotes v location?) (located : x.At location?)

include denotes located

theorem Traces.read : Traces v [.read d] x.loadItems := .one (located.load ▸ .read denotes)

theorem Traces.write : Traces v [.write d] x.storeItems := .one (located.store ▸ .write denotes)

theorem Traces.step (up : Bool) : Traces v [.step d up] (x.stepItems up) :=
  .one (located.step up ▸ .step denotes)

end

/-- Whether names and fields are where they are declared. -/
structure Surroundings.Known (v : Surroundings) : Prop where
  field : ∀ a (i : Nat) id, (v.table.types.fields a)[i]? = some id → (v.table.entity id).adr = i
  name : ∀ name id, v.table.lookup? name = some id →
    ∃ location?, Designator.Denotes v (.mk name []) location? ∧
      (Operand.ofEntity id (v.table.entity id)).result.At location?

namespace Syntax

open SymbolTable

/-! ## Expressions -/

/-- Whether a relation for expressions accounts for the storage that their values take. -/
def Tracing (v : Surroundings) (rule : Translation Expr) : Prop :=
  ∀ ⦃t e items x t'⦄, rule t e items x t' → t'.Widens v.table →
    Traces v e.accesses (items ++ x.loadItems)

section

variable {v : Surroundings} (known : v.Known) {levels : Nat}
  (inner : Tracing v (Expr.Compiles levels)) {t t' : SymbolTable} {items : List Item}
  {x y : Operand}

include known inner

/-- A selector reads what it selects from. -/
theorem Selector.Apply.traces {selectors done : List Selector} {name : String}
    {location? : Option Location}
    (applies : Selector.Apply (Expr.Compiles levels) t x selectors items y t')
    (last : t'.Widens v.table) (typed : v.table.designatorType (.mk name done) = x.type)
    (denotes : Designator.Denotes v (.mk name done) location?) (located : x.At location?) :
    Traces v (Selector.listAccesses name done selectors) items ∧
      ∃ location?, Designator.Denotes v (.mk name (done ++ selectors)) location? ∧
        y.At location? := by
  induction applies generalizing done location? with
  | nil =>
    rw [Selector.listAccesses]
    exact ⟨.none rfl, location?, by simpa using denotes, located⟩
  | @field t x field id rest items y t' isClass valued found more ih =>
    have read := Traces.read denotes located
    have widens := (more.outlines (names_of_ne (by simp))).1.widens.trans last
    have fields := widens.fields x.type
    obtain ⟨member, named⟩ := Scope.mem_of_search found
    obtain ⟨index, at_⟩ := mem_iff_getElem?.mp (mem_reverse.mp member)
    have adr : (t.entity id).adr = index := by
      rw [← widens.entity]
      exact known.field x.type index id (fields ▸ at_)
    have denotes' : Designator.Denotes v (.mk name (done ++ [.field field]))
        (some (.field index)) := by
      refine .field typed (widens.persists.keeps.isClass isClass) ?_
      rw [fieldNames, fields, getElem?_map, at_, Option.map_some, widens.entity, named]
    have typed' : v.table.designatorType (.mk name (done ++ [.field field])) =
        (t.entity id).type := by
      rw [designatorType_append, typed, selectedType, fields, widens.search, found,
        Option.elim_some, widens.entity]
    obtain ⟨traces, result⟩ := ih last typed' denotes' (.field rfl adr)
    rw [Selector.listAccesses, Selector.accesses]
    exact ⟨read.append traces, by simpa using result⟩
  | @index t x e items1 index t1 rest items2 y t' storable inner_ int valued isArray more ih =>
    have read := Traces.read denotes located
    have widens := (more.outlines (names_of_ne (by simp))).1.widens.trans last
    have typed' : v.table.designatorType (.mk name (done ++ [.index e])) =
        t1.types.elemType x.type := by
      rw [designatorType_append, typed]
      exact (widens.persists.keeps.isArray isArray).2
    obtain ⟨traces, result⟩ := ih last typed' .element (.other (by simp) (by simp) (by simp))
    rw [Selector.listAccesses, Selector.accesses]
    refine ⟨?_, by simpa using result⟩
    have all := (read.append (inner inner_ widens)).append traces
    simpa using all

theorem Designator.Compiles.traces {d : Designator}
    (compiles : d.Compiles (Expr.Compiles levels) t items x t') (last : t'.Widens v.table) :
    Traces v d.innerAccesses items ∧ ∃ location?, d.Denotes v location? ∧ x.At location? := by
  have widens := compiles.outlines.1.widens.trans last
  obtain @⟨_, name, id, selectors, _, _, _, found, denotes, selected⟩ := compiles
  rw [← widens.lookup] at found
  obtain ⟨location?, denotes, located⟩ := known.name name id found
  rw [widens.entity] at located
  rw [Designator.innerAccesses]
  refine selected.traces known inner last ?_ denotes located
  simp [designatorType, found, widens.entity, Operand.ofEntity]

omit known in
theorem Expr.Fit.traces {parameters : List EntityId} {es : List Expr}
    (fit : Expr.Fit (Expr.Compiles levels) t parameters es items t') (last : t'.Widens v.table) :
    Traces v (Expr.listAccesses es) items := by
  induction fit with
  | nil => rw [Expr.listAccesses]; exact .none rfl
  | cons inner_ valued fits more ih =>
    rw [Expr.listAccesses]
    have widens := more.outlines.widens.trans last
    exact (inner inner_ widens).append (ih last)

omit known inner in
private theorem storage_fill (value : Int) :
    storage [.plain .dup [] ⟨rfl, rfl⟩, .const value] = [] := by
  simp [Opcode.storage?, Opcode.loadSlot?, Opcode.storeSlot?]

omit known in
theorem Expr.Fill.traces {index : Nat} {elem : TypeId} {es : List Expr}
    (fill : Expr.Fill (Expr.Compiles levels) t index elem es items t') (last : t'.Widens v.table) :
    Traces v (Expr.listAccesses es) items := by
  induction fill with
  | nil => rw [Expr.listAccesses]; exact .none rfl
  | @cons _ index _ _ _ _ _ _ elem _ _ inner_ decided fits valued more ih =>
    rw [Expr.listAccesses]
    have widens := more.outlines.widens.trans last
    have first := ((inner inner_ widens).before (storage_fill (Int32.ofNat index).toInt)).behind
      (show storage [.storeElement elem] = [] by simp)
    have all := first.append (ih last)
    simpa using all

omit known in
theorem VarArguments.Collect.traces {parameter : Option EntityId} {extra : Option VarArguments}
    (collect : VarArguments.Collect (Expr.Compiles levels) t parameter extra items t')
    (last : t'.Widens v.table) : Traces v (extra.elim [] VarArguments.accesses) items := by
  cases collect with
  | none => exact .none rfl
  | omitted => exact .none (by simp)
  | filled fill count =>
    rw [Option.elim_some, VarArguments.accesses]
    exact (fill.traces inner last).before (by simp)

omit known in
theorem Arguments.Pass.traces {id : EntityId} {args : Arguments}
    (pass : args.Pass (Expr.Compiles levels) t id items t') (last : t'.Widens v.table) :
    Traces v args.accesses items := by
  obtain @⟨fixed, extra, _, _, _, _, fit, collect⟩ := pass
  have widens := collect.outlines.widens.trans last
  have both := (fit.traces inner widens).append (collect.traces inner last)
  clear collect
  cases extra <;> (rw [Arguments.accesses]; exact both)

theorem Factor.Compiles.traces {f : Factor}
    (compiles : f.Compiles (Expr.Compiles levels) t items x t') (last : t'.Widens v.table) :
    Traces v f.accesses (items ++ x.loadItems) := by
  cases compiles with
  | value designator =>
    rw [Factor.accesses]
    obtain ⟨traces, location?, denotes, located⟩ := designator.traces known inner last
    exact traces.append (.read denotes located.asValue)
  | call designator isMethod method result arguments =>
    rw [Factor.accesses]
    have widens := arguments.outlines.widens.trans last
    have front := (designator.traces known inner widens).1
    exact (front.append (arguments.traces inner last)).behind (by simp) |>.behind rfl
  | number | character =>
    rw [Factor.accesses]
    exact .none (by simp [Operand.loadItems, Operand.number, Operand.character])
  | @object _ name id found isType isClass =>
    rw [Factor.accesses]
    obtain ⟨scope, _, inScope⟩ := exists_of_findSome?_eq_some found
    have isClassOf : v.table.IsClassOf name (v.table.entity id).type := by
      refine ⟨id, ?_, ?_, rfl, ?_⟩ <;> rw [last.entity]
      · exact isType
      · exact (Scope.mem_of_search inScope).2
      · exact last.persists.keeps.isClass isClass
    have performs := Access.Performs.create (last.lookup name ▸ found) isClassOf
    rw [fieldNames, length_map, last.fields, last.entity] at performs
    exact .one performs
  | array found isType inner_ int sized =>
    rw [Factor.accesses]
    have widens := (SymbolTable.Widens.refl.array _).trans last
    exact ((inner inner_ widens).behind (by simp)).behind rfl
  | paren inner_ =>
    rw [Factor.accesses]
    exact inner inner_ last

omit known inner in
/-- A chain loads its first operand first and then the others, one after the other. -/
theorem Chained.traces {Op φ : Type} {item : Op → Item} {operand : Translation φ}
    {accesses : φ → List Access} (bare : ∀ op, (item op).storage? = none)
    (widens : ∀ ⦃t e items x t'⦄, operand t e items x t' → t.Widens t')
    (operands : ∀ ⦃t e items x t'⦄, operand t e items x t' → t'.Widens v.table →
      Traces v (accesses e) (items ++ x.loadItems)) {rest : List (Op × φ)}
    (chained : Chained item operand t x rest items y t') (last : t'.Widens v.table)
    {front : List Item} {done : List Access} (traces : Traces v done (front ++ x.loadItems)) :
    Traces v (done ++ rest.flatMap fun pair => accesses pair.2)
      (front ++ items ++ y.loadItems) := by
  induction chained generalizing front done with
  | nil => simpa using traces
  | @cons t x op e items1 y t1 rest items2 z t' valued inner_ ints valued' more ih =>
    have first := traces.append (operands inner_ ((more.widens widens).trans last))
    have loaded : Traces v (done ++ accesses e) (front ++ x.loadItems ++ (items1 ++ y.loadItems) ++
        [item op] ++ x.pushed.loadItems) := (first.behind (by simp [bare])).behind rfl
    have all := ih last loaded
    simpa using all

omit known inner in
theorem MulOp.storage?_item (op : MulOp) : op.item.storage? = none := by
  cases op <;> rfl

omit known inner in
theorem AddOp.storage?_item (op : AddOp) : op.item.storage? = none := by
  cases op <;> rfl

omit known inner in
private theorem storage_update (op : UpdateOp) : storage [op.item] = [] := by
  cases op with
  | add op => cases op <;> rfl
  | mul op => cases op <;> rfl

theorem Term.Compiles.traces {e : Term} (compiles : e.Compiles (Expr.Compiles levels) t items x t')
    (last : t'.Widens v.table) : Traces v e.accesses (items ++ x.loadItems) := by
  have widens : ∀ ⦃t f items x t'⦄, Factor.Compiles (Expr.Compiles levels) t f items x t' →
      t.Widens t' :=
    fun _ _ _ _ _ factor => factor.outlines.1.widens
  obtain ⟨first, chained⟩ := compiles
  rw [Term.accesses, Factor.chainAccesses_eq]
  exact chained.traces MulOp.storage?_item widens
    (fun _ _ _ _ _ factor => factor.traces known inner)
    last (first.traces known inner ((chained.widens widens).trans last))

theorem Expr.CompilesIn.traces : Tracing v (Expr.CompilesIn (Expr.Compiles levels)) := by
  have widens : ∀ ⦃t e items x t'⦄, Term.Compiles (Expr.Compiles levels) t e items x t' →
      t.Widens t' :=
    fun _ _ _ _ _ term => term.outlines.1.widens
  have terms : ∀ ⦃t e items x t'⦄, Term.Compiles (Expr.Compiles levels) t e items x t' →
      t'.Widens v.table → Traces v e.accesses (items ++ x.loadItems) :=
    fun _ _ _ _ _ term => term.traces known inner
  intro t e items x t' compiles last
  cases compiles with
  | positive first chained =>
    rw [Expr.accesses, Term.chainAccesses_eq]
    exact chained.traces AddOp.storage?_item widens terms last
      (terms first ((chained.widens widens).trans last))
  | @negative _ term _ front x _ _ _ _ first int valued chained =>
    rw [Expr.accesses, Term.chainAccesses_eq]
    have loaded := terms first ((chained.widens widens).trans last)
    have negated : Traces v term.accesses (front ++ x.negateItems ++ x.negated.loadItems) := by
      obtain ⟨steps, performs, storage⟩ := loaded
      refine ⟨steps, performs, ?_⟩
      rw [append_assoc, storage_append, x.storage_negateItems, ← storage, storage_append]
    exact chained.traces AddOp.storage?_item widens terms last negated

omit inner in
theorem Expr.Compiles.traces (levels : Nat) : Tracing v (Expr.Compiles levels) := by
  induction levels with
  | zero => exact fun _ _ _ _ _ impossible => impossible.elim
  | succ levels ih => exact Expr.CompilesIn.traces known ih

end

/-! ## Conditions and statements -/

section

variable {v : Surroundings} (known : v.Known) {levels : Nat} {t t' : SymbolTable}
  {items : List Item} {op : Comparison} {base : Nat} {place : Place} {stmtRule : StmtTranslation}

include known

theorem Compare.Compiles.traces {c : Compare}
    (compiles : Compare.Compiles (Expr.Compiles levels) t c items t') (last : t'.Widens v.table) :
    Traces v c.accesses items := by
  obtain ⟨left, valued, right, valued', _, _⟩ := compiles
  have inner := Expr.Compiles.traces known levels
  have widens := right.outline.1.widens.trans last
  exact (inner left widens).append (inner right last)

theorem Conjunction.Compiles.traces {c : Conjunction}
    (compiles : Conjunction.Compiles (Expr.Compiles levels) t c items op t')
    (last : t'.Widens v.table) : Traces v c.accesses items := by
  induction compiles with
  | single compare =>
    simpa [Conjunction.accesses, Conjunction.compares] using compare.traces known last
  | and front compare ih =>
    have widens := compare.accounts.widens.trans last
    simpa [Conjunction.accesses, Conjunction.compares] using
      ((ih widens).jump _ _).append (compare.traces known last)

theorem Disjunction.Compiles.traces {c : Disjunction}
    (compiles : c.Compiles (Expr.Compiles levels) t base items op t') (last : t'.Widens v.table) :
    Traces v c.accesses items := by
  induction compiles with
  | single conjunction =>
    simpa [Disjunction.accesses, Disjunction.conjunctions] using conjunction.traces known last
  | or front conjunction ih =>
    have widens := conjunction.accounts.widens.trans last
    simpa [Disjunction.accesses, Disjunction.conjunctions] using
      (((ih widens).jump _ _).resolve _ _).append (conjunction.traces known last)

private theorem guardItems_traces {c : Disjunction}
    (compiles : c.Compiles (Expr.Compiles levels) t base items op t') (last : t'.Widens v.table) :
    Traces v c.accesses (guardItems base items op) :=
  ((compiles.traces known last).jump _ _).resolve _ _

omit known in
/-- Whether a relation for statements accounts for their storage. -/
def StmtTracing (v : Surroundings) (rule : StmtTranslation) : Prop :=
  ∀ ⦃place t base s items t'⦄, rule place t base s items t' → t.Widens t' ∧
    (t'.Widens v.table → Traces v s.accesses items)

omit known in
theorem Stmt.Sequence.traces (rule : StmtTracing v stmtRule) {body : List Stmt}
    (sequence : Stmt.Sequence stmtRule place t base body items t') : t.Widens t' ∧
      (t'.Widens v.table → Traces v (Stmt.listAccesses body) items) := by
  induction sequence with
  | nil =>
    rw [Stmt.listAccesses]
    exact ⟨.refl, fun _ => .none rfl⟩
  | cons first more ih =>
    obtain ⟨widens, traces⟩ := rule first
    obtain ⟨widens', traces'⟩ := ih
    rw [Stmt.listAccesses]
    exact ⟨widens.trans widens', fun last => (traces (widens'.trans last)).append (traces' last)⟩

theorem Stmt.CompilesIn.traces (rule : StmtTracing v stmtRule) :
    StmtTracing v (Stmt.CompilesIn stmtRule (Expr.Compiles levels)) := by
  have inner := Expr.Compiles.traces known levels
  intro place t base s items t' compiles
  cases compiles with
  | assign designator value storable valued assignable =>
    have widens := value.outline.1.widens
    refine ⟨designator.outlines.1.widens.trans widens, fun last => ?_⟩
    rw [Stmt.accesses]
    obtain ⟨front, location?, denotes, located⟩ :=
      designator.traces known inner (widens.trans last)
    have all := (front.append (inner value last)).append (.write denotes located)
    simpa using all
  | @update _ op _ _ x _ _ _ _ designator value storable valued ints =>
    have widens := value.outline.1.widens
    refine ⟨designator.outlines.1.widens.trans widens, fun last => ?_⟩
    rw [Stmt.accesses]
    obtain ⟨front, location?, denotes, located⟩ :=
      designator.traces known inner (widens.trans last)
    have read := (front.behind x.storage_keepItems).append (.read denotes located)
    have all := ((read.append (inner value last)).behind (storage_update op)).append
      (.write denotes located)
    simpa using all
  | step designator storable int =>
    refine ⟨designator.outlines.1.widens, fun last => ?_⟩
    rw [Stmt.accesses]
    obtain ⟨front, location?, denotes, located⟩ := designator.traces known inner last
    exact front.append (.step denotes located _)
  | call designator isMethod method arguments =>
    have widens := arguments.outlines.widens
    refine ⟨designator.outlines.1.widens.trans widens, fun last => ?_⟩
    rw [Stmt.accesses]
    have front := (designator.traces known inner (widens.trans last)).1
    refine ((front.append (arguments.traces inner last)).behind (by simp)).behind ?_
    split <;> rfl
  | ifThen condition then_ =>
    obtain ⟨widens, traces⟩ := rule then_
    refine ⟨condition.accounts.widens.trans widens, fun last => ?_⟩
    rw [Stmt.accesses]
    exact ((guardItems_traces known condition (widens.trans last)).append (traces last)).resolve _ _
  | ifElse condition then_ else_ =>
    obtain ⟨widens, traces⟩ := rule then_
    obtain ⟨widens', traces'⟩ := rule else_
    have guard := condition.accounts.widens
    refine ⟨(guard.trans widens).trans widens', fun last => ?_⟩
    rw [Stmt.accesses]
    have first := guardItems_traces known condition (widens.trans (widens'.trans last))
    exact ((((first.append (traces (widens'.trans last))).jump _ _).resolve _ _).append
      (traces' last)).resolve _ _
  | loop condition body_ =>
    obtain ⟨widens, traces⟩ := rule body_
    refine ⟨condition.accounts.widens.trans widens, fun last => ?_⟩
    rw [Stmt.accesses]
    have first := guardItems_traces known condition (widens.trans last)
    exact (((first.append (traces last)).jump _ _).resolve _ _).resolve _ _
  | leave inLoop =>
    rw [Stmt.accesses]
    exact ⟨.refl, fun _ => .none rfl⟩
  | yieldNothing void =>
    rw [Stmt.accesses]
    exact ⟨.refl, fun _ => .none rfl⟩
  | yieldValue value valued result assignable =>
    rw [Stmt.accesses]
    exact ⟨value.outline.1.widens, fun last => (inner value last).behind rfl⟩
  | read designator storable readable =>
    refine ⟨designator.outlines.1.widens, fun last => ?_⟩
    rw [Stmt.accesses]
    obtain ⟨front, location?, denotes, located⟩ := designator.traces known inner last
    refine front.append
      ((Traces.write denotes located).before (show storage [_] = [] from ?_))
    split <;> rfl
  | print value valued printable =>
    rw [Stmt.accesses]
    refine ⟨value.outline.1.widens, fun last => (inner value last).behind ?_⟩
    split <;> simp [Opcode.storage?, Opcode.loadSlot?, Opcode.storeSlot?]
  | block sequence =>
    rw [Stmt.accesses]
    exact sequence.traces rule
  | empty =>
    rw [Stmt.accesses]
    exact ⟨.refl, fun _ => .none rfl⟩

theorem Stmt.Compiles.traces (levels : Nat) : StmtTracing v (Stmt.Compiles levels) := by
  induction levels with
  | zero => exact fun _ _ _ _ _ _ impossible => impossible.elim
  | succ levels ih => exact Stmt.CompilesIn.traces known ih

end

end Syntax

end MicroJava

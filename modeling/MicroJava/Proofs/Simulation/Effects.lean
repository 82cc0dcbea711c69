import MicroJava.Proofs.Simulation.Memory
import MicroJava.Proofs.Simulation.Statement
import MicroJava.Proofs.Syntax.Effects
import MicroJava.Proofs.Verification.Expression

/-! # Compiled expressions do what they mean

Running the items of an expression and those that load its operand takes the world to where evaluating
the expression takes it, and pushes its value. The items of arguments push all of them, in order.
Nested calls are carried out by the code of the methods, whatever that is.

While the elements of an array are computed, the array has no cells in the world but some in the
machine. A computation is the same whatever these `pending` cells are, so it leaves them alone.
-/

namespace MicroJava

open Items Operand SymbolTable Machine List Item Option Compile

/-! ## Machines that have a world -/

namespace Eval

variable {α β : Type} {w w' : World} {a : α} {b : β}

private theorem result_eq_some {value : Option α} :
    World.result value w = some (a, w') ↔ value = some a ∧ w' = w := by
  cases value <;> simp [World.result, eq_comm]

private theorem pure_eq_some {a' : α} : (pure a : Eval α) w = some (a', w') ↔ a' = a ∧ w' = w := by
  change some (a, w) = some (a', w') ↔ _
  simp [eq_comm]

private theorem bind_eq_some {x : Eval α} {f : α → Eval β} :
    (x >>= f) w = some (b, w') ↔ ∃ a w1, x w = some (a, w1) ∧ f a w1 = some (b, w') := by
  change ((x w).bind fun result => f result.1 result.2) = some (b, w') ↔ _
  simp [bind_eq_some_iff]

end Eval

namespace World

/-- Whether arrays without cells still have none. -/
def Keeps (w w' : World) : Prop := ∀ i : Nat, w.heap[i]? = some none → w'.heap[i]? = some none

theorem Keeps.refl (w : World) : w.Keeps w := fun _ reserved => reserved

theorem Keeps.trans {w w1 w2 : World} (first : w.Keeps w1) (second : w1.Keeps w2) : w.Keeps w2 :=
  fun i reserved => second i (first i reserved)

private theorem keeps_append (w : World) (cells : Option (List Int32)) :
    w.Keeps { w with heap := w.heap ++ [cells] } := by
  intro i reserved
  obtain ⟨inside, _⟩ := List.getElem?_eq_some_iff.mp reserved
  rw [← reserved]
  exact getElem?_append_left inside

/-- The machine that has a world and a stack. `around` has its frames and the addresses to return to,
`pending` the cells of the arrays whose elements are still to be computed. -/
def machine (w : World) (pending : Nat → List Int32) (around : Machine) (stack : List Int32) :
    Machine :=
  { around with
    stack
    globals := w.globals
    heap := w.heap.mapIdx fun i cells => cells.getD (pending i)
    output := w.output }

variable {w w' : World} {pending : Nat → List Int32} {around : Machine} {stack : List Int32}
  {reference : Int32} {index : Int} {cells : List Int32} {i : Nat}

private theorem object?_machine (found : w.object? reference = some cells) :
    (w.machine pending around stack).object? reference = some cells := by
  unfold object? at found
  unfold Machine.object?
  split at found
  · cases found
  · next positive =>
    rw [if_neg positive, machine, getElem?_mapIdx, join_eq_some_iff.mp found]
    rfl

private theorem loadCell_machine {value : Int32}
    (done : readCell reference index w = some (value, w')) :
    w' = w ∧ ∀ pending around stack, loadCell reference index
      (w.machine pending around stack) = .ok (w.machine pending around (value :: stack)) := by
  simp only [readCell, map_eq_some_iff, bind_eq_some_iff, Prod.mk.injEq] at done
  obtain ⟨_, ⟨cells, found, isCell⟩, rfl, rfl⟩ := done
  refine ⟨rfl, fun pending around stack => ?_⟩
  rw [loadCell, object?_machine found]
  simp only [require, isCell]
  rfl

/-- An array that is being filled has its cells in the machine as if it had them in the world. -/
theorem machine_fill (reserved : w.heap[i]? = some none) :
    w.machine (Function.update pending i cells) around stack =
      { w with heap := w.heap.set i (some cells) }.machine pending around stack := by
  have inside := (List.getElem?_eq_some_iff.mp reserved).1
  have heaps : w.heap.mapIdx (fun j cells' => cells'.getD (Function.update pending i cells j)) =
      (w.heap.set i (some cells)).mapIdx fun j cells => cells.getD (pending j) := by
    refine List.ext_getElem? fun j => ?_
    rw [List.getElem?_mapIdx, List.getElem?_mapIdx, List.getElem?_set]
    by_cases same : i = j
    · subst same
      rw [reserved, if_pos rfl, if_pos inside]
      simp
    · simp [same, Function.update_of_ne (Ne.symm same)]
  simp only [machine, heaps]

/-- Storing to an array that is being filled. -/
theorem setCell_machine (reserved : w.heap[i]? = some none)
    (number : reference.toInt = (i + 1 : Nat)) {n : Nat} (inside : n < cells.length) (value : Int32)
    (pending : Nat → List Int32) (around : Machine) (stack : List Int32) :
    setCell reference n value (w.machine (Function.update pending i cells) around stack) =
      .ok (w.machine (Function.update pending i (cells.set n value)) around stack) := by
  have known := (List.getElem?_eq_some_iff.mp reserved).1
  have found : { w with heap := w.heap.set i (some cells) }.object? reference = some cells := by
    have positive : ¬ ((i + 1 : Nat) : Int) ≤ 0 := by omega
    rw [object?, number, if_neg positive]
    simp [known]
  rw [machine_fill reserved, machine_fill reserved, setCell, object?_machine found]
  simp only [require, setCell?_natCast inside, number]
  simp [machine, List.mapIdx_set]

/-- A new array in the machine, whether it is filled already or not. -/
theorem machine_append (made : Option (List Int32))
    (same : made.getD (pending w.heap.length) = cells) :
    { w with heap := w.heap ++ [made] }.machine pending around stack =
      { w.machine pending around stack with heap := (w.machine pending around stack).heap ++ [cells] } := by
  simp [machine, mapIdx_append, same]

end World

/-! ## Items that compute -/

/-- Whether items, wherever they stand in a code, find some operands on the stack, do what a
computation does and leave other operands there. -/
def Does {α : Type} (code : List Instruction) (locals : List Int32) (items : List Item)
    (before : List Int32) (c : Eval α) (after : α → List Int32) : Prop :=
  ∀ base, Items.At code base items → Items.farCount base items = 0 →
    ∀ w a w', c w = some (a, w') → w.Keeps w' ∧
      ∀ pending around stack, around.visible = locals →
        Reaches code (.running base (w.machine pending around (before ++ stack)))
          (.running (base + Items.size items) (w'.machine pending around (after a ++ stack)))

namespace Does

variable {α β : Type} {code : List Instruction} {locals before : List Int32}
  {items front back : List Item} {i : Item} {c : Eval α} {after : α → List Int32}

theorem pure (after : α → List Int32) (a : α) : Does code locals [] (after a) (pure a) after := by
  intro base _ _ w a' w' done
  obtain ⟨rfl, rfl⟩ := Eval.pure_eq_some.mp done
  exact ⟨.refl _, fun _ _ _ _ => .refl⟩

/-- A computation without a result. -/
theorem nothing (none : ∀ w, c w = none) : Does code locals items before c after := by
  intro base _ _ w a w' done
  rw [none] at done
  cases done

theorem bind {f : α → Eval β} {last : β → List Int32}
    (first : Does code locals front before c after)
    (second : ∀ a w w', c w = some (a, w') → Does code locals back (after a) (f a) last) :
    Does code locals (front ++ back) before (c >>= f) last := by
  intro base located near w b w2 done
  obtain ⟨a, w1, done1, done2⟩ := Eval.bind_eq_some.mp done
  obtain ⟨near1, near2⟩ := farCount_append_eq_zero.mp near
  obtain ⟨keeps1, run1⟩ := first base located.left near1 w a w1 done1
  obtain ⟨keeps2, run2⟩ := second a w w1 done1 _ located.right near2 w1 b w2 done2
  refine ⟨keeps1.trans keeps2, fun pending around stack visible => ?_⟩
  rw [size_append, ← Nat.add_assoc]
  exact (run1 pending around stack visible).trans (run2 pending around stack visible)

/-- A result that is taken in another form. -/
theorem map {f : α → β} {last : β → List Int32} (does : Does code locals items before c after)
    (same : ∀ a, last (f a) = after a) :
    Does code locals items before (c >>= fun a => Pure.pure (f a)) last := by
  have both := does.bind fun a _ _ _ => same a ▸ @Does.pure β code locals last (f a)
  rwa [append_nil] at both

/-- What lies deeper on the stack stays there. -/
theorem frame (does : Does code locals items before c after) (more : List Int32) :
    Does code locals items (before ++ more) c fun a => after a ++ more := by
  intro base located near w a w' done
  obtain ⟨keeps, run⟩ := does base located near w a w' done
  refine ⟨keeps, fun pending around stack visible => ?_⟩
  simpa using run pending around (more ++ stack) visible

theorem single (increasing : Increasing code) (sequential : i.isSequential = true)
    (runs : ∀ w a w', c w = some (a, w') → w.Keeps w' ∧
      ∀ pending around stack, around.visible = locals →
        i.execute (w.machine pending around (before ++ stack)) =
          .ok (w'.machine pending around (after a ++ stack))) :
    Does code locals [i] before c after := by
  intro base located _ w a w' done
  obtain ⟨keeps, run⟩ := runs w a w' done
  refine ⟨keeps, fun pending around stack visible => .step ?_⟩
  rw [step_sequential increasing located sequential, run pending around stack visible]
  rfl

/-- An item that leaves the world as it is. -/
theorem reading (increasing : Increasing code) (sequential : i.isSequential = true)
    (runs : ∀ w a w', c w = some (a, w') → w' = w ∧
      ∀ pending around stack, around.visible = locals →
        i.execute (w.machine pending around (before ++ stack)) =
          .ok (w.machine pending around (after a ++ stack))) :
    Does code locals [i] before c after := by
  refine single increasing sequential fun w a w' done => ?_
  obtain ⟨rfl, run⟩ := runs w a w' done
  exact ⟨.refl _, run⟩

end Does

namespace Machine

/-- A call that is near enough leads to its address. -/
theorem step_call {code : List Instruction} {adr target : Nat} {items : List Item}
    (increasing : Increasing code) (located : At code adr (.call target :: items))
    (near : (call target).isFar adr = false) (m : Machine) :
    step code (.running adr m) = .running target { m with returns := (adr + 3) :: m.returns } := by
  rw [step_at increasing located]
  exact transfer_item rfl near _

end Machine

theorem Item.fits_newArray (elem : TypeId) :
    ∀ pair ∈ Opcode.newArray.widths.zip [if elem = .char then 0 else 1], pair.1.Fits pair.2 := by
  simp only [Opcode.widths, zip_cons_cons, zip_nil_right, mem_singleton]
  rintro pair rfl
  split
  · exact Frame.fits_byte (n := 0) (by decide)
  · exact Frame.fits_byte (n := 1) (by decide)

section Items

variable {code : List Instruction} {locals : List Int32} (increasing : Increasing code)

include increasing

theorem does_const {α : Type} {before : List Int32} (value : Int32) (after : α → List Int32) (a : α)
    (pushed : after a = value :: before) :
    Does code locals [.const value.toInt] before (pure a) after := by
  refine .reading increasing (by simp) fun w a' w' done => ?_
  obtain ⟨rfl, rfl⟩ := Eval.pure_eq_some.mp done
  refine ⟨rfl, fun _ _ _ _ => ?_⟩
  rw [pushed]
  exact execute_const value _

private theorem does_getField {index : Int} (low : 0 ≤ index) (high : index ≤ 0x7fff)
    (object : Int32) :
    Does code locals [.plain .getField [index] ⟨rfl, rfl⟩] [object] (World.readCell object index)
      ([·]) := by
  refine .reading increasing rfl fun w a w' done => ?_
  obtain ⟨rfl, load⟩ := World.loadCell_machine done
  refine ⟨rfl, fun pending around stack _ => ?_⟩
  rw [execute_getField low high]
  exact load pending around stack

private theorem does_loadElement (elem : TypeId) (array index : Int32) :
    Does code locals [.loadElement elem] [index, array] (World.readCell array index.toInt) ([·]) := by
  refine .reading increasing (by simp) fun w a w' done => ?_
  obtain ⟨rfl, load⟩ := World.loadCell_machine done
  refine ⟨rfl, fun pending around stack _ => ?_⟩
  rw [execute_loadElement]
  exact load pending around stack

private theorem does_binary {i : Item} {f : Int32 → Int32 → Option Int32}
    (sequential : i.isSequential = true) (runs : i.execute = binary f) (a b : Int32) :
    Does code locals [i] [b, a] (World.result (f a b)) ([·]) := by
  refine .reading increasing sequential fun w v w' done => ?_
  obtain ⟨value, rfl⟩ := Eval.result_eq_some.mp done
  refine ⟨rfl, fun pending around stack _ => ?_⟩
  simp [runs, binary, pop, push, require, World.machine, value]

private theorem does_neg (value : Int32) :
    Does code locals [.plain .neg [] ⟨rfl, rfl⟩] [value] (pure (-value)) ([·]) := by
  refine .reading increasing rfl fun w v w' done => ?_
  obtain ⟨rfl, rfl⟩ := Eval.pure_eq_some.mp done
  exact ⟨rfl, fun _ _ _ _ => rfl⟩

private theorem does_arrayLength (array : Int32) :
    Does code locals [.plain .arrayLength [] ⟨rfl, rfl⟩] [array] (World.arrayLength array) ([·]) := by
  refine .reading increasing rfl fun w v w' done => ?_
  simp only [World.arrayLength, map_eq_some_iff, Prod.mk.injEq] at done
  obtain ⟨cells, found, rfl, rfl⟩ := done
  refine ⟨rfl, fun pending around stack _ => ?_⟩
  change require _ ((w.machine pending around stack).object? array) _ = _
  rw [World.object?_machine found]
  rfl

/-- An item that makes an object or array. -/
theorem does_allocate {i : Item} {size : Nat} {before : List Int32} (sequential : i.isSequential = true)
    (runs : ∀ m : Machine, i.execute { m with stack := before ++ m.stack } = .ok (m.allocate size)) :
    Does code locals [i] before (World.allocate size) ([·]) := by
  refine .single increasing sequential fun w v w' done => ?_
  cases done
  refine ⟨w.keeps_append _, fun pending around stack _ => ?_⟩
  rw [World.machine_append (some _) rfl]
  refine (runs (w.machine pending around stack)).trans ?_
  simp [allocate, World.machine]

private theorem does_newArray (elem : TypeId) (size : Int32) :
    Does code locals [.newArray elem] [size] (World.allocate size.toInt.toNat) ([·]) := by
  refine does_allocate increasing rfl fun m => ?_
  rw [newArray, execute_of_fits (fits_newArray elem)]
  rfl

end Items

/-! ## Operands -/

/-- What a method collects is known before its arguments are compiled. -/
theorem SymbolTable.Standing.collects {t t1 u : SymbolTable} (standing : t.Standing)
    {id parameter : EntityId} (isMethod : (t.entity id).kind = .method)
    (collecting : (splitParameters (t.entity id)).2 = some parameter) (within : t.Widens t1)
    (further : t1.Widens u) :
    u.types.elemType (u.entity parameter).type = t1.types.elemType (t1.entity parameter).type ∧
      t1.types.elemType (t1.entity parameter).type ≠ .none := by
  obtain ⟨collects, isLast⟩ := mem_splitParameters collecting
  obtain ⟨isData, isArray⟩ := (standing.callables id isMethod).collects collects parameter isLast
  have keeps := within.persists.keeps
  have isArray1 := (keeps.isArray isArray).1
  have based := (within.standing standing).wellTyped.based
  rw [further.entity, within.entity]
  exact ⟨(further.persists.keeps.isArray isArray1).2,
    based.ne_none (based.isData_elem (keeps.isData isData) isArray1)⟩

namespace Syntax

open SymbolTable

variable {id : EntityId}

/-- What is known of the items and the operand that an expression compiles to. -/
structure Computes (code : List Instruction) (locals : List Int32) (items : List Item) (x : Operand)
    (c : Eval Int32) : Prop where
  does : Does code locals (items ++ x.loadItems) [] c ([·])
  /-- A constant has no items, since its value is part of the operand. -/
  constant : x.kind = .con → items = [] ∧ c = pure x.value

namespace Computes

variable {code : List Instruction} {locals : List Int32} {items back : List Item} {x index : Operand}
  {c number : Eval Int32}

theorem stacked (does : Does code locals items [] c ([·])) (onStack : x.kind = .stack) :
    Computes code locals items x c where
  does := by simpa [loadItems, onStack] using does
  constant := by simp [onStack]

variable (increasing : Increasing code)

include increasing

theorem ofConstant (isConstant : x.kind = .con) : Computes code locals [] x (pure x.value) where
  does := by
    have load : x.loadItems = [.const x.value.toInt] := by simp [loadItems, isConstant]
    rw [load]
    exact does_const increasing x.value ([·]) x.value rfl
  constant _ := ⟨rfl, rfl⟩

/-- A name. What is no constant or variable has no value. -/
theorem ofName {t : SymbolTable} (addressable : t.Addressable) {name : String}
    (found : t.lookup? name = some id) :
    Computes code locals [] (ofEntity id (t.entity id)).result (t.read locals id) := by
  cases kind : (t.entity id).kind with
  | con =>
    have read : t.read locals id = pure (ofEntity id (t.entity id)).result.value := by
      funext w
      simp only [SymbolTable.read, kind]
      rfl
    rw [read]
    exact ofConstant increasing (by simp [ofEntity, kindOf, kind])
  | var =>
    by_cases global : (t.entity id).level = 0
    · obtain ⟨low, high⟩ := addressable.globalVar name id found kind global
      have isStatic : (ofEntity id (t.entity id)).result.kind = .staticVar := by
        simp [ofEntity, kindOf, kind, global]
      refine ⟨?_, by simp [isStatic]⟩
      rw [loadItems, isStatic]
      refine .reading increasing rfl fun w v w' done => ?_
      simp only [SymbolTable.read, kind, if_pos global, map_eq_some_iff, Prod.mk.injEq] at done
      obtain ⟨_, cell, rfl, rfl⟩ := done
      refine ⟨rfl, fun pending around stack _ => ?_⟩
      simp [ofEntity, execute_getStatic low high, loadGlobal, World.machine, cell, require, push]
    · obtain ⟨low, high⟩ := addressable.localVar name id found kind global
      have isLocal : (ofEntity id (t.entity id)).result.kind = .localVar := by
        simp [ofEntity, kindOf, kind, global]
      refine ⟨?_, by simp [isLocal]⟩
      rw [loadItems, isLocal]
      refine .reading increasing (by simp) fun w v w' done => ?_
      simp only [SymbolTable.read, kind, if_neg global, map_eq_some_iff, Prod.mk.injEq] at done
      obtain ⟨_, cell, rfl, rfl⟩ := done
      refine ⟨rfl, fun pending around stack visible => ?_⟩
      have same : (w.machine pending around stack).visible = locals := visible
      simp only [ofEntity, execute_load low high, nil_append, loadLocal, same, cell, require]
      rfl
  | type | method | program =>
    refine ⟨.nothing fun w => by simp only [SymbolTable.read, kind], ?_⟩
    simp [ofEntity, kindOf, kind]

section

variable (computes : Computes code locals items x c)

include computes

/-- A field of the object that an operand refers to. -/
theorem field (adr : Int) (low : 0 ≤ adr) (high : adr ≤ 0x7fff) (type : TypeId) :
    Computes code locals (items ++ x.loadItems) { x with kind := .field, type, adr }
      (c >>= fun v => World.readCell v adr) where
  does := computes.does.bind fun v _ _ _ => does_getField increasing low high v
  constant := by simp

/-- An element of the array that an operand refers to. -/
theorem element (inner : Computes code locals back index number) (elem : TypeId) :
    Computes code locals (items ++ (x.loadItems ++ back ++ index.loadItems))
      { x with kind := .element, type := elem }
      (c >>= fun v => number >>= fun i => World.readCell v i.toInt) where
  does := by
    have both := computes.does.bind fun v _ _ _ => (inner.does.frame [v]).bind fun i _ _ _ =>
      does_loadElement increasing elem v i
    simpa [loadItems] using both
  constant := by simp

/-- An operand with its sign changed. -/
theorem negate :
    Computes code locals (items ++ x.negateItems) x.negated (c >>= fun v => pure (-v)) := by
  by_cases isConstant : x.kind = .con
  · obtain ⟨rfl, rfl⟩ := computes.constant isConstant
    have negated : Computes code locals [] { x with value := -x.value } (pure (-x.value)) :=
      ofConstant increasing isConstant
    simpa [Operand.negateItems, Operand.negated, isConstant] using negated
  · have does : Does code locals (items ++ x.loadItems ++ [.plain .neg [] ⟨rfl, rfl⟩]) []
        (c >>= fun v => pure (-v)) ([·]) :=
      computes.does.bind fun v _ _ _ => does_neg increasing v
    have negated := stacked (x := x.pushed) does rfl
    simpa [Operand.negateItems, Operand.negated, isConstant] using negated

end

end Computes

/-! ## Expressions -/

/-- Whether the code of every method of a program does with arguments what it is said to do: it finds
them on the stack, the last one on top, and goes back with the result in their place. -/
def Carries (code : List Instruction) (t : SymbolTable) (calls : Calls) : Prop :=
  ∀ id, t.IsMethod id → ∀ values w result w', calls id values w = some (result, w') → w.Keeps w' ∧
    ∀ pending around stack next,
      Reaches code
        (.running (t.entity id).adr.toNat (w.machine pending
          { around with returns := next :: around.returns } (values.reverse ++ stack)))
        (.running next (w'.machine pending around (result.toList ++ stack)))

/-- What is known of a code and a table where expressions are compiled. -/
structure Setting (code : List Instruction) (u : SymbolTable) (calls : Calls) : Prop where
  increasing : Increasing code
  addressable : u.Addressable
  placed : u.Placed fun _ => True
  carries : Carries code u calls

/-- Whether a relation for expressions gives items that compute them, in tables that become another
one. -/
def Computing (code : List Instruction) (u : SymbolTable) (calls : Calls) (locals : List Int32)
    (rule : Translation Expr) : Prop :=
  ∀ ⦃t e items x t'⦄, rule t e items x t' → t.Standing → t'.Widens u →
    Computes code locals items x (e.run u calls locals)

section

variable {code : List Instruction} {u : SymbolTable} {calls : Calls} {locals : List Int32}
  {levels : Nat} {t t' : SymbolTable} {items front : List Item} {x y : Operand} {c : Eval Int32}
  (setting : Setting code u calls) (inner : Computing code u calls locals (Expr.Compiles levels))
  {es : List Expr} {w w' : World} {values : List Int32}

omit setting inner in
theorem World.result_some {α : Type} (a : α) : World.result (some a) = (pure a : Eval α) := rfl

include setting inner

theorem Selector.Apply.computes {selectors : List Selector}
    (applies : Selector.Apply (Expr.Compiles levels) t x selectors items y t')
    (standing : t.Standing) (last : t'.Widens u) (computes : Computes code locals front x c) :
    Computes code locals (front ++ items) y
      (c >>= fun v => Selector.runAll u calls locals x.type v selectors) := by
  induction applies generalizing front c with
  | nil => simpa [Selector.runAll] using computes
  | @field t x name id rest items y t' isClass valued found more ih =>
    have widens := (more.outlines (names_of_ne (by simp))).1.widens.trans last
    have known : t.types.contains x.type = true :=
      TypeTable.contains_of_isReference (by simp [TypeTable.isReference, isClass])
    have fields : u.types.fields x.type = t.types.fields x.type :=
      congrArg TypeInfo.fields (widens.persists.info _ known)
    have isField : u.field? x.type name = some id := by
      simpa only [field?, fields, search, widens.entity] using found
    obtain ⟨adr, high⟩ := setting.addressable.field_adr isField
    rw [widens.entity] at adr
    have selected := ih standing last
      (computes.field setting.increasing (t.entity id).adr (by omega) (by omega) _)
    simpa [Selector.runAll, isField, World.result_some, widens.entity] using selected
  | @index t x e items1 index t1 rest items2 y t' storable inner_ int valued isArray more ih =>
    have widens := (more.outlines (names_of_ne (by simp))).1.widens.trans last
    have elem : u.types.elemType x.type = t1.types.elemType x.type :=
      (widens.persists.keeps.isArray isArray).2
    have number := inner inner_ standing widens
    have selected := ih (inner_.outline.1.widens.standing standing) last
      (computes.element setting.increasing number _)
    simpa [Selector.runAll, elem] using selected

omit setting in
theorem Expr.Fit.does {parameters : List EntityId}
    (fit : Expr.Fit (Expr.Compiles levels) t parameters es items t') (standing : t.Standing)
    (last : t'.Widens u) : Does code locals items [] (Expr.runAll u calls locals es) reverse := by
  induction fit with
  | nil => exact .pure reverse []
  | @cons t parameter parameters e rest items1 x t1 items2 t' inner_ valued fits more ih =>
    have widens := more.outlines.widens.trans last
    rw [Expr.runAll]
    refine (inner inner_ standing widens).does.bind fun v _ _ _ => ?_
    have others := (ih (inner_.outline.1.widens.standing standing) last).frame [v]
    exact others.map fun values => reverse_cons

omit inner in
/-- Stores a value at the next index of an array that is being filled. -/
theorem Setting.store {base slot : Nat} {reference : Int32} (elem : TypeId)
    (located : At code base [.storeElement elem]) (reserved : w.heap[slot]? = some none)
    (number : reference.toInt = (slot + 1 : Nat)) {filled : List Int32} {index : Int32}
    (next : index.toInt = filled.length) (old value : Int32) (rest : List Int32)
    (pending : Nat → List Int32) (around : Machine) (stack : List Int32) :
    Reaches code
      (.running base (w.machine (Function.update pending slot (filled ++ old :: rest)) around
        (value :: index :: reference :: stack)))
      (.running (base + size [.storeElement elem])
        (w.machine (Function.update pending slot (filled ++ storedAs elem value :: rest)) around
          stack)) := by
  have inside : filled.length < (filled ++ old :: rest).length := by simp
  have stored := World.setCell_machine reserved number inside (storedAs elem value) pending around stack
  rw [set_append_right _ _ (Nat.le_refl _), Nat.sub_self, set_cons_zero, ← next] at stored
  have executes : (storeElement elem).isSequential = true ∧ (storeElement elem).execute =
      pop fun value => pop fun index => pop fun array =>
        setCell array index.toInt (storedAs elem value) := by
    unfold storeElement storedAs
    split <;> exact ⟨rfl, rfl⟩
  apply Reaches.step
  rw [step_sequential setting.increasing located executes.1, executes.2]
  change goOn _ _ (setCell reference index.toInt (storedAs elem value)
    (w.machine _ around stack)) = _
  rw [stored]
  rfl

/-- Values fill an array from an index on. The cells before it are there, the others to come. -/
theorem Expr.Fill.fills {index : Nat} {elem : TypeId}
    (fill : Expr.Fill (Expr.Compiles levels) t index elem es items t') (standing : t.Standing)
    (last : t'.Widens u) (data : elem ≠ .none) {base slot : Nat} (located : At code base items)
    (near : farCount base items = 0) {reference : Int32}
    (number : reference.toInt = (slot + 1 : Nat)) {values filled rest : List Int32}
    (done : Expr.runAll u calls locals es w = some (values, w'))
    (reserved : w.heap[slot]? = some none) (next : filled.length = index)
    (room : rest.length = es.length) (bound : index + es.length ≤ 0x7fffffff) :
    w.Keeps w' ∧ ∀ pending around stack, around.visible = locals →
      Reaches code
        (.running base (w.machine (Function.update pending slot (filled ++ rest)) around
          (reference :: stack)))
        (.running (base + size items) (w'.machine (Function.update pending slot
          (filled ++ values.map (storedAs elem))) around (reference :: stack))) := by
  induction fill generalizing base w values filled rest with
  | nil =>
    obtain ⟨rfl, rfl⟩ := Eval.pure_eq_some.mp done
    obtain rfl : rest = [] := length_eq_zero_iff.mp room
    exact ⟨.refl _, fun _ _ _ _ => .refl⟩
  | @cons t index elem e more items1 x t1 elem' items2 t' inner_ decided fits valued others ih =>
    rw [if_neg data] at decided
    subst decided next
    obtain ⟨old, rest, rfl⟩ := exists_of_length_succ rest room
    simp only [length_cons, Nat.add_right_cancel_iff] at room bound
    rw [Expr.runAll] at done
    obtain ⟨v, w1, first, done⟩ := Eval.bind_eq_some.mp done
    obtain ⟨values', w2, done, last_⟩ := Eval.bind_eq_some.mp done
    obtain ⟨rfl, rfl⟩ := Eval.pure_eq_some.mp last_
    have widens := others.outlines.widens.trans last
    -- The array and the index come before the value.
    have dup : Does code locals [.plain .dup [] ⟨rfl, rfl⟩] [reference] (pure ())
        fun _ => [reference, reference] :=
      .reading setting.increasing rfl fun _ _ _ done =>
        ⟨(Eval.pure_eq_some.mp done).2, fun _ _ _ _ => rfl⟩
    have place := dup.bind fun _ _ _ _ => does_const setting.increasing (Int32.ofNat filled.length)
      (fun _ => [Int32.ofNat filled.length, reference, reference]) () rfl
    have value := place.bind fun _ _ _ _ => (inner inner_ standing widens).does.frame
      [Int32.ofNat filled.length, reference, reference]
    simp only [pure_bind, cons_append, nil_append] at value
    obtain ⟨nearFirst, nearMore⟩ := farCount_append_eq_zero.mp near
    obtain ⟨keeps1, run1⟩ := value base (by simpa using located.left.left)
      (by simpa using (farCount_append_eq_zero.mp nearFirst).1) w v w1 first
    have index : (Int32.ofNat filled.length).toInt = filled.length :=
      Int32.toInt_ofNat_of_lt (by omega)
    have next : (filled ++ [storedAs elem' v]).length = filled.length + 1 := length_append
    obtain ⟨keeps2, run2⟩ := ih (inner_.outline.1.widens.standing standing) last data located.right
      nearMore done (keeps1 slot reserved) next room (by omega)
    refine ⟨keeps1.trans keeps2, fun pending around stack visible => ?_⟩
    have stores := setting.store elem' located.left.right (keeps1 slot reserved) number index old v
      rest pending around (reference :: stack)
    have run1 := run1 (Function.update pending slot (filled ++ old :: rest)) around stack visible
    have run2 := run2 pending around stack visible
    simp only [cons_append, nil_append, append_assoc, size_append, size_cons,
      size_nil, Nat.add_assoc, Nat.add_zero, map_cons] at run1 stores run2 ⊢
    exact run1.trans (stores.trans run2)

omit inner in
theorem Setting.newArray (elem : TypeId) (size : Int32) :
    Does code locals [.const size.toInt, .newArray elem] [] (World.allocate size.toInt.toNat) ([·]) := by
  have both : Does code locals ([.const size.toInt] ++ [.newArray elem]) []
      (pure size >>= fun size => World.allocate size.toInt.toNat) ([·]) :=
    (does_const setting.increasing size ([·]) size rfl).bind fun size _ _ _ =>
      does_newArray setting.increasing elem size
  simpa using both

/-- The arguments after `#` become the elements of a new array. -/
theorem Expr.Fill.does {elem : TypeId}
    (fill : Expr.Fill (Expr.Compiles levels) t 0 elem es items t') (standing : t.Standing)
    (last : t'.Widens u) (data : elem ≠ .none) {size : Int32}
    (count : (es.length : Int) = size.toInt) :
    Does code locals ([.const size.toInt, .newArray elem] ++ items) []
      ((VarArguments.mk size es).run u calls locals elem) ([·]) := by
  intro base located near w reference w' done
  rw [VarArguments.run] at done
  obtain ⟨slot, w1, made, done⟩ := Eval.bind_eq_some.mp done
  obtain ⟨values, w2, evaluated, done⟩ := Eval.bind_eq_some.mp done
  obtain ⟨_, w3, filled, done⟩ := Eval.bind_eq_some.mp done
  obtain ⟨rfl, rfl⟩ := Eval.pure_eq_some.mp done
  cases filled
  unfold World.reserve at made
  split at made
  · next small =>
    cases made
    have number : (Int32.ofNat (w.heap.length + 1)).toInt = (w.heap.length + 1 : Nat) :=
      Int32.toInt_ofNat_of_lt (by omega)
    have reserved : (w.heap ++ [none])[w.heap.length]? = some none := by simp
    have bound := Int32.toInt_lt size
    have count : size.toInt.toNat = es.length := by omega
    have nearItems := farCount_append_eq_zero.mp near
    obtain ⟨_, run1⟩ := setting.newArray elem size base located.left nearItems.1 w _ _ rfl
    have room : (replicate es.length (0 : Int32)).length = es.length := length_replicate
    obtain ⟨keeps, run2⟩ := fill.fills setting inner standing last data located.right nearItems.2
      number evaluated reserved length_nil room (by omega)
    refine ⟨fun i empty => ?_, fun pending around stack visible => ?_⟩
    · have inside := (List.getElem?_eq_some_iff.mp empty).1
      rw [getElem?_set_ne (by omega)]
      exact keeps i (w.keeps_append none i empty)
    · have run1 := run1 pending around stack visible
      have run2 := run2 pending around stack visible
      rw [World.machine_fill reserved, World.machine_fill (keeps _ reserved)] at run2
      simp only [count, set_append_right _ _ (Nat.le_refl _), Nat.sub_self, set_cons_zero,
        nil_append] at run1 run2
      rw [size_append, ← Nat.add_assoc]
      exact run1.trans run2
  · cases made

omit setting inner in
theorem Expr.length_runAll (done : Expr.runAll u calls locals es w = some (values, w')) :
    values.length = es.length := by
  induction es generalizing w values with
  | nil =>
    obtain ⟨rfl, rfl⟩ := Eval.pure_eq_some.mp done
    rfl
  | cons e es ih =>
    rw [Expr.runAll] at done
    obtain ⟨v, w1, _, done⟩ := Eval.bind_eq_some.mp done
    obtain ⟨values', w2, more, done⟩ := Eval.bind_eq_some.mp done
    obtain ⟨rfl, rfl⟩ := Eval.pure_eq_some.mp done
    simp [ih more]

/-- The arguments of a call are on the stack when it comes, the last one on top. -/
theorem Arguments.Pass.does {args : Arguments}
    (pass : args.Pass (Expr.Compiles levels) t id items t') (standing : t.Standing)
    (last : t'.Widens u) (isMethod : (t.entity id).kind = .method) :
    Does code locals items [] (args.run u calls locals id) reverse := by
  obtain @⟨fixed, extra, _, t1, _, _, fit, collect⟩ := pass
  have within := fit.outlines.widens
  have further : t1.Widens u := collect.outlines.widens.trans last
  have collects (p : EntityId) (member : (splitParameters (t.entity id)).2 = some p) :=
    standing.collects isMethod member within further
  have same : u.entity id = t.entity id := (within.trans further).entity id
  rw [Arguments.run]
  refine (fit.does inner standing further).bind fun values _ _ _ => ?_
  simp only [collects?, same]
  generalize (splitParameters (t.entity id)).2 = parameter at collect collects
  cases collect with
  | none => exact .pure reverse values
  | @omitted p =>
    rw [map_some, (collects p rfl).1]
    exact ((setting.newArray _ 0).frame values.reverse).map fun array => by simp
  | @filled p size es items t' fill count =>
    obtain ⟨elem, data⟩ := collects p rfl
    rw [map_some, elem]
    have filled := fill.does setting inner (within.standing standing) last data count
    exact (filled.frame values.reverse).map fun array => by simp

omit setting inner in
/-- There is an argument for each parameter. -/
theorem Arguments.Pass.length {nested : Translation Expr} {args : Arguments}
    (pass : args.Pass nested t id items t') (same : u.entity id = t.entity id)
    (done : args.run u calls locals id w = some (values, w')) :
    values.length = (u.entity id).parameters.length := by
  obtain @⟨fixed, extra, _, t1, _, _, fit, collect⟩ := pass
  have count : fixed.length = (splitParameters (t.entity id)).1.length := by
    generalize (splitParameters (t.entity id)).1 = parameters at fit
    clear collect done same
    induction fit with
    | nil => rfl
    | cons _ _ _ _ ih => rw [length_cons, length_cons, ih]
  rw [same, ← splitParameters_append, length_append, ← count]
  rw [Arguments.run] at done
  obtain ⟨first, w1, evaluated, done⟩ := Eval.bind_eq_some.mp done
  rw [← Expr.length_runAll evaluated]
  simp only [collects?, same] at done
  generalize (splitParameters (t.entity id)).2 = parameter at collect done
  cases collect with
  | none =>
    obtain ⟨rfl, _⟩ := Eval.pure_eq_some.mp done
    rfl
  | omitted | filled =>
    obtain ⟨array, w2, _, done⟩ := Eval.bind_eq_some.mp done
    obtain ⟨rfl, _⟩ := Eval.pure_eq_some.mp done
    simp

omit inner in
/-- A call finds its arguments on the stack and leaves its result there. -/
theorem Setting.call (based : u.Based) (isMethod : (u.entity id).kind = .method)
    (adr : x.adr = (u.entity id).adr) (count : values.length = (u.entity id).parameters.length) :
    Does code locals (x.callItems id) values.reverse (invoke calls id values) toList := by
  -- Predeclared methods have one parameter.
  have one (predeclared : id ∈ [chr, ord, len]) : ∃ v, values = [v] := by
    have all : ∀ id ∈ [chr, ord, len], initial.contains id = true ∧
        (initial.entity id).parameters.length = 1 := by decide
    obtain ⟨inside, length⟩ := all id predeclared
    rw [based.entity id inside, length] at count
    exact length_eq_one_iff.mp count
  unfold callItems invoke
  split
  · next isChar =>
    obtain ⟨v, rfl⟩ := one (by rcases isChar with rfl | rfl <;> decide)
    exact .pure toList (some v)
  · next notChar =>
    obtain ⟨notChr, notOrd⟩ := not_or.mp notChar
    split
    · next isLen =>
      subst isLen
      obtain ⟨v, rfl⟩ := one (by decide)
      exact (does_arrayLength setting.increasing v).map fun _ => rfl
    · next notLen =>
      have own := based.isMethod_of_ne isMethod notChr notOrd notLen
      obtain ⟨target, _, begins⟩ := setting.placed id own
      rw [adr, begins]
      intro base located near w result w' done
      obtain ⟨keeps, run⟩ := setting.carries id own values w result w' done
      refine ⟨keeps, fun pending around stack _ => ?_⟩
      have nearCall := (farCount_cons_eq_zero.mp near).1
      refine (Reaches.step (step_call setting.increasing located nearCall _)).trans ?_
      have run := run pending around stack (base + 3)
      rwa [begins, Int.toNat_natCast] at run

theorem Factor.Compiles.computes {f : Factor}
    (compiles : f.Compiles (Expr.Compiles levels) t items x t') (standing : t.Standing)
    (last : t'.Widens u) : Computes code locals items x (f.run u calls locals) := by
  have increasing := setting.increasing
  cases compiles with
  | @value t d items x t' designator =>
    obtain @⟨_, name, id, selectors, _, _, _, found, _, selected⟩ := designator
    have widens := (selected.outlines (names_ofEntity t id)).1.widens.trans last
    rw [← widens.lookup] at found
    have start : Computes code locals [] _ (u.read locals id) :=
      .ofName increasing setting.addressable found
    rw [widens.entity] at start
    have computes := selected.computes setting inner standing last start
    rw [Factor.run, found, World.result_some, pure_bind, widens.entity]
    unfold asValue
    split
    · next method =>
      -- The name of a method has no value.
      obtain rfl := selected.kind method
      cases selected
      have kind : (t.entity id).kind = .method := kindOf_eq_method.mp method
      refine ⟨.nothing fun w => ?_, by simp⟩
      have none : u.read locals id w = none := by simp only [SymbolTable.read, widens.entity, kind]
      change (u.read locals id w).bind _ = Option.none
      rw [none]
      rfl
    · exact computes
  | @call t d items1 x t1 id args items2 t' designator isMethod method result arguments =>
    obtain ⟨name, rfl, rfl, rfl, rfl, found, isEntity⟩ := designator.method isMethod method
    have widens := arguments.outlines.widens.trans last
    have same : u.entity id = t.entity id := widens.entity id
    rw [← widens.lookup] at found
    rw [Factor.run, found, World.result_some, pure_bind]
    refine .stacked ?_ rfl
    refine (arguments.does setting inner standing last isEntity).bind fun values _ _ done => ?_
    have based := widens.based standing.wellTyped.based
    have called : Does code locals ((ofEntity id (t.entity id)).result.callItems id)
        values.reverse (invoke calls id values) toList :=
      setting.call based (same ▸ isEntity) (congrArg Entity.adr same.symm) (arguments.length same done)
    have results (result : Option Int32) :
        Does code locals [] result.toList (World.result result) ([·]) := by
      cases result with
      | none => exact .nothing fun _ => rfl
      | some v => exact .pure ([·]) v
    simpa using called.bind fun result _ _ _ => results result
  | number | character =>
    rw [Factor.run]
    exact .ofConstant increasing rfl
  | @object _ name id found isType isClass =>
    have known : t.types.contains (t.entity id).type = true :=
      TypeTable.contains_of_isReference (by simp [TypeTable.isReference, isClass])
    have fields : u.types.fields (t.entity id).type = t.types.fields (t.entity id).type :=
      congrArg TypeInfo.fields (last.persists.info _ known)
    rw [← last.lookup] at found
    rw [Factor.run, found, World.result_some, pure_bind, last.entity, fields]
    have bound := standing.wellTyped.fieldCount (t.entity id).type
    simp only [Limits.supported] at bound
    refine .stacked (does_allocate increasing rfl fun m => ?_) rfl
    rw [execute_of_fits (by simpa [Opcode.widths] using Frame.fits_short bound)]
    rfl
  | @array _ name id e items size t1 found isType inner_ int valued =>
    have widens : t1.Widens u := (Widens.array _ .refl).trans last
    rw [Factor.run]
    exact .stacked ((inner inner_ standing widens).does.bind fun count _ _ _ =>
      does_newArray increasing _ count) rfl
  | paren inner_ =>
    rw [Factor.run]
    exact inner inner_ standing last

omit inner in
/-- Operators and further operands after an operand. -/
theorem Chained.computes {Op φ : Type} {item : Op → Item} {operand : Translation φ}
    {apply : Op → Int32 → Int32 → Option Int32} {run : φ → Eval Int32}
    (runChain : Int32 → List (Op × φ) → Eval Int32)
    (runs : ∀ op, (item op).execute = binary (apply op))
    (sequential : ∀ op, (item op).isSequential = true)
    (widening : ∀ ⦃t e items x t'⦄, operand t e items x t' → t.Widens t')
    (operands : ∀ ⦃t e items x t'⦄, operand t e items x t' → t.Standing → t'.Widens u →
      Computes code locals items x (run e)) (nil : ∀ v, runChain v [] = pure v)
    (cons : ∀ v op e rest, runChain v ((op, e) :: rest) =
      run e >>= fun w => World.result (apply op v w) >>= fun v => runChain v rest)
    {rest : List (Op × φ)} (chained : Chained item operand t x rest items y t')
    (standing : t.Standing) (last : t'.Widens u) (first : Computes code locals front x c) :
    Computes code locals (front ++ items) y (c >>= fun v => runChain v rest) := by
  induction chained generalizing front c with
  | nil => simpa [nil] using first
  | @cons t x op e items1 y t1 rest items2 z t' _ inner_ _ _ more ih =>
    have second := operands inner_ standing ((more.widens widening).trans last)
    have both := first.does.bind fun v _ _ _ => (second.does.frame [v]).bind fun w _ _ _ =>
      does_binary setting.increasing (sequential op) (runs op) v w
    have chained := ih ((widening inner_).standing standing) last
      (.stacked (x := x.pushed) both rfl)
    simpa [cons] using chained

theorem Term.Compiles.computes {e : Term}
    (compiles : e.Compiles (Expr.Compiles levels) t items x t') (standing : t.Standing)
    (last : t'.Widens u) : Computes code locals items x (e.run u calls locals) := by
  have widening : ∀ ⦃t e items x t'⦄, Factor.Compiles (Expr.Compiles levels) t e items x t' →
      t.Widens t' := fun _ _ _ _ _ factor => factor.outlines.1.widens
  obtain ⟨first_, chained⟩ := compiles
  have first := first_.computes setting inner standing ((chained.widens widening).trans last)
  rw [Term.run]
  exact chained.computes setting (Factor.runChain u calls locals) MulOp.execute_item
    (fun op => by cases op <;> rfl) widening
    (fun _ _ _ _ _ factor => factor.computes setting inner)
    (fun _ => by rw [Factor.runChain]) (fun _ _ _ _ => by rw [Factor.runChain])
    ((widening first_).standing standing) last first

theorem Expr.CompilesIn.computes :
    Computing code u calls locals (Expr.CompilesIn (Expr.Compiles levels)) := by
  have widening : ∀ ⦃t e items x t'⦄, Term.Compiles (Expr.Compiles levels) t e items x t' →
      t.Widens t' := fun _ _ _ _ _ term => term.outlines.1.widens
  have chains {t x rest items y t'} {front : List Item} {c : Eval Int32}
      (chained : Chained AddOp.item (Term.Compiles (Expr.Compiles levels)) t x rest items y t') :=
    @Chained.computes code u calls locals t t' items front x y c setting _ _ _ _ _ _
      (Term.runChain u calls locals) AddOp.execute_item (fun op => by cases op <;> rfl) widening
      (fun _ _ _ _ _ term => term.computes setting inner)
      (fun _ => by rw [Term.runChain]) (fun _ _ _ _ => by rw [Term.runChain]) rest chained
  intro t e items x t' compiles standing last
  cases compiles with
  | positive first_ chained =>
    have first := first_.computes setting inner standing ((chained.widens widening).trans last)
    rw [Expr.run]
    simpa using chains chained ((widening first_).standing standing) last first
  | negative first_ int valued chained =>
    have first := first_.computes setting inner standing ((chained.widens widening).trans last)
    rw [Expr.run]
    simpa using chains chained ((widening first_).standing standing) last
      (first.negate setting.increasing)

end

theorem Expr.Compiles.computes {code : List Instruction} {u : SymbolTable} {calls : Calls}
    (setting : Setting code u calls) (locals : List Int32) (levels : Nat) :
    Computing code u calls locals (Expr.Compiles levels) := by
  induction levels with
  | zero => exact fun _ _ _ _ _ impossible => impossible.elim
  | succ levels ih => exact Expr.CompilesIn.computes setting ih

end Syntax

end MicroJava

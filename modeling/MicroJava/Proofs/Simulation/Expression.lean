import MicroJava.Proofs.Simulation.Value

/-! # Compiled expressions push their value

The items of an expression made of integers, followed by those that load its operand, push the value
of the expression and change nothing else, or meet the fault of a division without a quotient.
-/

namespace MicroJava

open Items Operand Machine List

namespace Syntax

/-! ## Names and their places -/

/-- What an entity says about a name of a program. -/
inductive Names.Denotes (names : Names) (name : String) (e : Entity) : Prop where
  | localVar {i : Nat} (slot : names.locals[i]? = some name) (kind : e.kind = .var)
      (level : e.level ≠ 0) (adr : e.adr = i)
  | constant (visible : name ∉ names.locals)
      (found : names.constants.lookup name = some e.value) (kind : e.kind = .con)
  | globalVar {i : Nat} (visible : name ∉ names.locals)
      (noConstant : names.constants.lookup name = none) (slot : names.globals[i]? = some name)
      (kind : e.kind = .var) (level : e.level = 0) (adr : e.adr = i)

/-- Whether a symbol table knows all names of a program, with a place of its own for each
variable. -/
structure Names.Known (names : Names) (t : SymbolTable) : Prop where
  denotes : ∀ name, names.declares name = true →
    ∃ id, t.lookup? name = some id ∧ (t.entity id).type = .int ∧ names.Denotes name (t.entity id)
  locals : names.locals.Nodup
  globals : names.globals.Nodup
  localsFit : names.locals.length ≤ 0x7f
  globalsFit : names.globals.length ≤ 0x7fff

theorem Names.Known.widen {names : Names} {t t' : SymbolTable} (known : names.Known t)
    (widens : t.Widens t') : names.Known t' where
  denotes name declared := by
    obtain ⟨id, found, type, denotes⟩ := known.denotes name declared
    rw [← widens.lookup] at found
    rw [← widens.entity] at type denotes
    exact ⟨id, found, type, denotes⟩
  locals := known.locals
  globals := known.globals
  localsFit := known.localsFit
  globalsFit := known.globalsFit

/-- The machine in the frame of `main` with the values of all variables. -/
def Names.machine (names : Names) (σ : Store) (stack : List Int32) : Machine where
  stack := stack
  locals := names.locals.map σ.locals
  frames := [0]
  globals := names.globals.map σ.globals
  output := σ.output

namespace Names

variable {names : Names} {σ : Store} {stack : List Int32} {name : String} {i : Nat}

@[simp] theorem push_machine (value : Int32) :
    (names.machine σ stack).push value = names.machine σ (value :: stack) := rfl

@[simp] theorem pop_machine (f : Int32 → Action) (value : Int32) :
    pop f (names.machine σ (value :: stack)) = f value (names.machine σ stack) := rfl

@[simp] theorem visible_machine : (names.machine σ stack).visible = names.locals.map σ.locals := by
  simp [visible, frame, machine]

private theorem loadLocal_machine (slot : names.locals[i]? = some name) :
    loadLocal i (names.machine σ stack) =
      .ok (names.machine σ (σ.locals name :: stack)) := by
  simp [loadLocal, slot, require]

private theorem loadGlobal_machine (slot : names.globals[i]? = some name) :
    loadGlobal i (names.machine σ stack) =
      .ok (names.machine σ (σ.globals name :: stack)) := by
  simp [loadGlobal, slot, require, machine, push]

/-- Storing at the place of a name changes the value of this name only. -/
theorem setCell?_map {keys : List String} (distinct : keys.Nodup) (slot : keys[i]? = some name)
    (values : String → Int32) (value : Int32) :
    setCell? (keys.map values) i value = some (keys.map (Function.update values name value)) := by
  obtain ⟨inside, rfl⟩ := List.getElem?_eq_some_iff.mp slot
  rw [setCell?_natCast (by simpa using inside), Option.some.injEq]
  refine ext_getElem (by simp) fun j inSet inMap => ?_
  have insideJ : j < keys.length := by simpa using inMap
  rw [getElem_set, getElem_map, getElem_map]
  split
  · next same =>
    subst same
    simp
  · next different =>
    have other : keys[j] ≠ keys[i] := fun same =>
      different ((getElem_inj distinct).mp same.symm)
    rw [Function.update_of_ne other]

theorem setLocal_machine (distinct : names.locals.Nodup) (slot : names.locals[i]? = some name)
    (σ : Store) (stack : List Int32) (value : Int32) :
    setLocal i value (names.machine σ stack) =
      .ok (names.machine { σ with locals := Function.update σ.locals name value } stack) := by
  rw [setLocal, visible_machine, setCell?_map distinct slot]
  simp [require, machine, frame]

theorem setGlobal_machine (distinct : names.globals.Nodup) (slot : names.globals[i]? = some name)
    (σ : Store) (stack : List Int32) (value : Int32) :
    setGlobal i value (names.machine σ stack) =
      .ok (names.machine { σ with globals := Function.update σ.globals name value } stack) := by
  rw [setGlobal, machine, setCell?_map distinct slot]
  rfl

end Names

/-! ## Items that push a value -/

@[simp] theorem ofQuotient_bind (result : Option Int32) (f : Int32 → Option Int32) :
    ofQuotient (result.bind f) = ofQuotient result >>= fun v => ofQuotient (f v) := by
  cases result <;> rfl

/-- The situation of machines in the frame of `main` with given values of the variables. -/
def Names.situation (names : Names) (σ : Store) : Situation where
  holds m := ∃ stack, m = names.machine σ stack
  push := by
    rintro _ ⟨stack, rfl⟩ value
    exact ⟨value :: stack, rfl⟩

/-- Whether items push a value that depends on the variables, and change nothing else. -/
def Pushes (names : Names) (items : List Item) (value : Store → Option Int32) : Prop :=
  ∀ σ, Reads (names.situation σ) items (ofQuotient (value σ))

/-- What follows a value that was pushed runs with it, unless there is none. -/
theorem Pushes.andThen {names : Names} {items : List Item} {value : Store → Option Int32}
    (pushes : Pushes names items value) (rest : List Item) (σ : Store) (stack : List Int32) :
    (∃ v, value σ = some v ∧ execute (items ++ rest) (names.machine σ stack) =
      execute rest (names.machine σ (v :: stack))) ∨
    (value σ = none ∧ ∃ stack', execute (items ++ rest) (names.machine σ stack) =
      .error (.divideByZero, names.machine σ stack')) := by
  have holds : (names.situation σ).holds (names.machine σ stack) := ⟨stack, rfl⟩
  have run := (pushes σ).andThen holds rest
  cases done : value σ with
  | none =>
    rw [done] at run
    obtain ⟨_, ⟨⟩, _⟩ | ⟨_, above, ⟨⟩, failed⟩ := run
    exact .inr ⟨rfl, above ++ stack, failed⟩
  | some v =>
    rw [done] at run
    obtain ⟨_, ⟨⟩, pushed⟩ | ⟨_, _, ⟨⟩, _⟩ := run
    exact .inl ⟨v, rfl, pushed⟩

/-! ## Operands -/

variable {names : Names} {t t' : SymbolTable} {id : EntityId} {e : Entity} {name : String}

/-- What is known of the items and the operand that an expression compiles to. -/
structure Evaluates (names : Names) (items : List Item) (x : Operand)
    (value : Store → Option Int32) (constant : Option Int32) : Prop where
  type : x.type = .int
  evaluated : ∀ σ, Evaluated (names.situation σ) items x (ofQuotient (value σ))
  constant : constant = if x.kind = .con then some x.value else none

theorem Evaluates.pushes {items : List Item} {x : Operand} {value : Store → Option Int32}
    {constant : Option Int32} (evaluates : Evaluates names items x value constant) :
    Pushes names (items ++ x.loadItems) value := fun σ => (evaluates.evaluated σ).reads

/-- Loading a name pushes its value. -/
theorem Names.Denotes.evaluated (denotes : names.Denotes name e) (known : names.Known t)
    (id : EntityId) (σ : Store) :
    Evaluated (names.situation σ) [] (ofEntity id e).result (.ok (names.value σ name)) := by
  cases denotes with
  | @localVar i slot kind level adr =>
    obtain ⟨inside, _⟩ := List.getElem?_eq_some_iff.mp slot
    have fits := known.localsFit
    refine ⟨?_, regular_ok _, by simp [ofEntity, kindOf, *], by simp [ofEntity, kindOf, *]⟩
    have items : (ofEntity id e).result.loadItems = [.load i] := by
      simp [ofEntity, kindOf, loadItems, kind, level, adr]
    rw [items]
    apply Reads.single (by simp)
    rintro _ ⟨stack, rfl⟩
    rw [Item.execute_load (by omega) (by omega), Names.loadLocal_machine slot]
    simp [Names.value, mem_of_getElem? slot]
  | constant visible found kind =>
    have value : names.value σ name = (ofEntity id e).result.value := by
      simp [Names.value, visible, found, ofEntity]
    rw [value]
    apply Evaluated.ofConstant
    simp [ofEntity, kindOf, kind]
  | @globalVar i visible noConstant slot kind level adr =>
    obtain ⟨inside, _⟩ := List.getElem?_eq_some_iff.mp slot
    have fits := known.globalsFit
    refine ⟨?_, regular_ok _, by simp [ofEntity, kindOf, *], by simp [ofEntity, kindOf, *]⟩
    have items : (ofEntity id e).result.loadItems =
        [.plain .getStatic [(i : Int)] ⟨rfl, rfl⟩] := by
      simp [ofEntity, kindOf, loadItems, kind, level, adr]
    rw [items]
    apply Reads.single rfl
    rintro _ ⟨stack, rfl⟩
    rw [Item.execute_getStatic (by omega) (by omega), Names.loadGlobal_machine slot]
    simp [Names.value, visible, noConstant]

theorem Names.Denotes.constant? (denotes : names.Denotes name e) (id : EntityId) :
    names.constant? name = if (ofEntity id e).result.kind = .con then some (ofEntity id e).result.value
      else none := by
  cases denotes with
  | localVar slot => simp [Names.constant?, mem_of_getElem? slot, ofEntity, kindOf, *]
  | constant | globalVar => simp [Names.constant?, ofEntity, kindOf, *]

/-! ## Expressions -/

/-- Whether a relation for expressions gives items that evaluate them, and leaves the symbol table as
it is. -/
def Evaluating (names : Names) (rule : Translation Expr) : Prop :=
  ∀ ⦃t e items x t'⦄, rule t e items x t' → names.Known t → e.isInt names = true →
    t' = t ∧ Evaluates names items x (fun σ => e.eval names σ) (e.constant? names)

variable {nested : Translation Expr} {items front : List Item} {x y : Operand}
  {value : Store → Option Int32} {constant : Option Int32}

/-- A name that is declared compiles to no items. -/
theorem Designator.Compiles.ofName (known : names.Known t) (declared : names.declares name = true)
    (compiles : Designator.Compiles nested t (.mk name []) items x t') :
    ∃ id, items = [] ∧ t = t' ∧ x = (ofEntity id (t.entity id)).result ∧
      x.type = .int ∧ names.Denotes name (t.entity id) := by
  obtain ⟨id, found, type, denotes⟩ := known.denotes name declared
  obtain ⟨found', _, selected⟩ := compiles
  obtain rfl := Option.some.inj (found.symm.trans found')
  cases selected
  exact ⟨id, rfl, rfl, rfl, type, denotes⟩

theorem Factor.Compiles.evaluates (inner : Evaluating names nested) {f : Factor}
    (compiles : f.Compiles nested t items x t') (known : names.Known t)
    (isInt : f.isInt names = true) :
    t' = t ∧ Evaluates names items x (fun σ => f.eval names σ) (f.constant? names) := by
  cases compiles with
  | @value _ d _ x _ designator =>
    obtain ⟨name, selectors⟩ := d
    cases selectors with
    | cons => simp [Factor.isInt] at isInt
    | nil =>
      have declared : names.declares name = true := by simpa [Factor.isInt] using isInt
      obtain ⟨id, rfl, rfl, rfl, type, denotes⟩ := designator.ofName known declared
      have valued : (ofEntity id (t.entity id)).result.asValue =
          (ofEntity id (t.entity id)).result := by
        cases denotes <;> simp [asValue, ofEntity, kindOf, *]
      rw [valued]
      exact ⟨rfl, type, denotes.evaluated known id, denotes.constant? id⟩
  | @number _ v => exact ⟨rfl, rfl, fun σ => .ofConstant rfl, rfl⟩
  | @paren _ e _ _ _ nested_ =>
    have isInt : e.isInt names = true := by simpa [Factor.isInt] using isInt
    simpa [Factor.eval, Factor.constant?] using inner nested_ known isInt
  | call | character | object | array => simp [Factor.isInt] at isInt

/-- A chain of operators yields its first operand, or a number on the stack. -/
theorem Chained.operand {Op φ : Type} {item : Op → Item} {operand : Translation φ}
    {rest : List (Op × φ)} (chained : Chained item operand t x rest items y t') :
    (rest = [] ∧ y = x) ∨ (rest ≠ [] ∧ y.type = x.type ∧ y.kind = .stack) := by
  induction chained with
  | nil => exact .inl ⟨rfl, rfl⟩
  | cons _ _ _ _ _ ih =>
    right
    rcases ih with ⟨_, rfl⟩ | ⟨_, type, kind⟩
    · simp [pushed]
    · exact ⟨by simp, type, kind⟩

/-- Operators and further operands after an operand. -/
theorem Chained.evaluates {Op φ : Type} {item : Op → Item} {operand : Translation φ}
    {apply : Op → Int32 → Int32 → Option Int32} {isInt : φ → Bool} {eval : Store → φ → Option Int32}
    {constant? : φ → Option Int32} (evalChain : Store → Int32 → List (Op × φ) → Option Int32)
    (runs : ∀ op, (item op).execute = binary (apply op))
    (sequential : ∀ op, (item op).isSequential = true)
    (inner : ∀ ⦃e items x t'⦄, operand t e items x t' → isInt e = true →
      t' = t ∧ Evaluates names items x (fun σ => eval σ e) (constant? e))
    (nil : ∀ σ v, evalChain σ v [] = some v)
    (cons : ∀ σ v op e rest, evalChain σ v ((op, e) :: rest) =
      (eval σ e).bind fun w => (apply op v w).bind fun u => evalChain σ u rest)
    {rest : List (Op × φ)} (chained : Chained item operand t x rest items y t')
    (isInts : ∀ entry ∈ rest, isInt entry.2 = true)
    (first : Evaluates names front x value constant) :
    t' = t ∧ Evaluates names (front ++ items) y
      (fun σ => (value σ).bind fun v => evalChain σ v rest)
      (if rest.isEmpty then constant else none) := by
  have evaluated (σ : Store) := chained.evaluated (fun v rest => ofQuotient (evalChain σ v rest))
    runs sequential (fun _ _ _ _ compiled isInt =>
      (inner compiled isInt).imp_right fun inner => inner.evaluated σ)
    (fun v => by rw [nil]; rfl) (fun v op e rest => by simp [cons]) isInts (first.evaluated σ)
  refine ⟨(evaluated .initial).1, ?_, fun σ => by simpa using (evaluated σ).2, ?_⟩
  · rcases chained.operand with ⟨_, rfl⟩ | ⟨_, type, _⟩
    · exact first.type
    · rw [type, first.type]
  · rcases chained.operand with ⟨rfl, rfl⟩ | ⟨more, _, kind⟩
    · exact first.constant
    · simp [more, kind]

theorem Factor.chainIsInt_iff {rest : List (MulOp × Factor)} :
    Factor.chainIsInt names rest = true ↔ ∀ entry ∈ rest, entry.2.isInt names = true := by
  induction rest with
  | nil => simp [Factor.chainIsInt]
  | cons entry rest ih => simp [Factor.chainIsInt, ih]

theorem Term.chainIsInt_iff {rest : List (AddOp × Term)} :
    Term.chainIsInt names rest = true ↔ ∀ entry ∈ rest, entry.2.isInt names = true := by
  induction rest with
  | nil => simp [Term.chainIsInt]
  | cons entry rest ih => simp [Term.chainIsInt, ih]

theorem Term.Compiles.evaluates (inner : Evaluating names nested) {e : Term}
    (compiles : e.Compiles nested t items x t') (known : names.Known t)
    (isInt : e.isInt names = true) :
    t' = t ∧ Evaluates names items x (fun σ => e.eval names σ) (e.constant? names) := by
  obtain ⟨first_, chained⟩ := compiles
  simp only [Term.isInt, Bool.and_eq_true, Factor.chainIsInt_iff] at isInt
  obtain ⟨rfl, first⟩ := first_.evaluates inner known isInt.1
  have chain := chained.evaluates (Factor.evalChain names) MulOp.execute_item
    (fun op => by cases op <;> rfl) (fun _ _ _ _ factor => factor.evaluates inner known)
    (fun _ _ => rfl) (fun _ _ _ _ _ => rfl) isInt.2 first
  simpa [Term.eval, Term.constant?] using chain

/-- An operand with its sign changed. -/
theorem Evaluates.negate (evaluates : Evaluates names items x value constant) :
    Evaluates names (items ++ x.negateItems) x.negated (fun σ => (value σ).map (- ·))
      (constant.map (- ·)) := by
  refine ⟨?_, fun σ => ?_, ?_⟩
  · have type := evaluates.type
    by_cases isConstant : x.kind = .con <;> simpa [negated, isConstant] using type
  · have same : ofQuotient ((value σ).map (- ·)) = ofQuotient (value σ) >>= fun v => pure (-v) := by
      cases value σ <;> rfl
    rw [same]
    exact (evaluates.evaluated σ).negate
  · rw [evaluates.constant]
    by_cases isConstant : x.kind = .con <;> simp [negated, isConstant, pushed]

theorem Expr.CompilesIn.evaluates (inner : Evaluating names nested) :
    Evaluating names (Expr.CompilesIn nested) := by
  intro t e items x t' compiles known isInt
  have chains {x items y t'} {rest : List (AddOp × Term)} {front : List Item}
      {value : Store → Option Int32} {constant : Option Int32}
      (chained : Chained AddOp.item (Term.Compiles nested) t x rest items y t')
      (isInts : Term.chainIsInt names rest = true)
      (first : Evaluates names front x value constant) :=
    chained.evaluates (Term.evalChain names) AddOp.execute_item (fun op => by cases op <;> rfl)
      (fun _ _ _ _ term => term.evaluates inner known)
      (fun _ _ => rfl) (fun _ _ _ _ _ => rfl) (Term.chainIsInt_iff.mp isInts) first
  cases compiles with
  | positive first_ chained =>
    simp only [Expr.isInt, Bool.and_eq_true] at isInt
    obtain ⟨rfl, first⟩ := first_.evaluates inner known isInt.1
    simpa [Expr.eval, Expr.constant?] using chains chained isInt.2 first
  | negative first_ int valued chained =>
    simp only [Expr.isInt, Bool.and_eq_true] at isInt
    obtain ⟨rfl, first⟩ := first_.evaluates inner known isInt.1
    simpa [Expr.eval, Expr.constant?, Option.bind_map, Function.comp_def] using
      chains chained isInt.2 first.negate

theorem Expr.Compiles.evaluates (levels : Nat) : Evaluating names (Expr.Compiles levels) := by
  induction levels with
  | zero => exact fun _ _ _ _ _ impossible => impossible.elim
  | succ levels ih => exact Expr.CompilesIn.evaluates ih

end Syntax

end MicroJava

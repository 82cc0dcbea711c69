import MicroJava.Proofs.Simulation.Step

/-! # Compiled statements do what they mean

Running the code of statements on the machine takes the values of the variables and the output to
where evaluating the statements takes them: to the end of the code, to the end of the loop around it,
to a fault, or on and on.
-/

namespace MicroJava

open Items Operand

/-- Whether a machine gets from one state to another. -/
def Reaches (code : List Instruction) (s s' : Machine.State) : Prop :=
  ∃ n, (Machine.step code)^[n] s = s'

namespace Reaches

variable {code : List Instruction} {s s1 s2 : Machine.State}

theorem refl : Reaches code s s := ⟨0, rfl⟩

theorem trans (first : Reaches code s s1) (second : Reaches code s1 s2) : Reaches code s s2 := by
  obtain ⟨n, rfl⟩ := first
  obtain ⟨k, rfl⟩ := second
  exact ⟨k + n, Function.iterate_add_apply _ k n s⟩

theorem step (once : Machine.step code s = s1) : Reaches code s s1 := ⟨1, once⟩

end Reaches

namespace Syntax

open Machine

variable {code : List Instruction} {names : Names} {σ : Store} {t t' : SymbolTable}
  {items : List Item} {base : Nat} {levels : Nat} {final : Comparison → Item}

/-- Running items that push a value. -/
theorem Pushes.reaches {value : Store → Option Int32} (pushes : Pushes names items value)
    (increasing : Increasing code) (located : At code base items) (σ : Store)
    (stack : List Int32) :
    (∃ v, value σ = some v ∧ Reaches code (.running base (names.machine σ stack))
      (.running (base + size items) (names.machine σ (v :: stack)))) ∨
    (value σ = none ∧ ∃ stack', Reaches code (.running base (names.machine σ stack))
      (.faulted .divideByZero (names.machine σ stack'))) := by
  obtain ⟨n, run⟩ := run_sequence increasing located (pushes σ).sequential (names.machine σ stack)
  have ends := pushes.andThen [] σ stack
  rw [List.append_nil] at ends
  rcases ends with ⟨v, isValue, done⟩ | ⟨none, stack', failed⟩
  · rw [done] at run
    exact .inl ⟨v, isValue, n, run⟩
  · rw [failed] at run
    exact .inr ⟨none, stack', n, run⟩

/-! ## Conditions -/

/-- Whether a machine goes from an address to one of two others, as a test decides. -/
def Tests (code : List Instruction) (names : Names) (σ : Store) (base holds fails : Nat) :
    Option Bool → Prop
  | some result => Reaches code (.running base (names.machine σ []))
      (.running (if result then holds else fails) (names.machine σ []))
  | none => ∃ stack, Reaches code (.running base (names.machine σ []))
      (.faulted .divideByZero (names.machine σ stack))

namespace Tests

variable {result : Option Bool} {next next' yes no : Nat}

theorem holds : Tests code names σ yes yes no (some true) := .refl

theorem fails : Tests code names σ no yes no (some false) := .refl

/-- A test that decides how to go on testing. -/
theorem bind {more : Bool → Option Bool} (first : Tests code names σ base next next' result)
    (rest : ∀ b, Tests code names σ (if b then next else next') yes no (more b)) :
    Tests code names σ base yes no (result.bind more) := by
  cases result with
  | none => exact first
  | some b =>
    have rest := rest b
    change Tests code names σ base yes no (more b)
    cases outcome : more b with
    | none =>
      rw [outcome] at rest
      obtain ⟨stack, failed⟩ := rest
      exact ⟨stack, .trans first failed⟩
    | some c =>
      rw [outcome] at rest
      exact .trans first rest

theorem negate (tests : Tests code names σ base next next' (result.map (! ·))) :
    Tests code names σ base next' next result := by
  cases result with
  | none => exact tests
  | some b => cases b <;> exact tests

end Tests

/-- A comparison and the jump behind it. -/
theorem Compare.Compiles.tests {c : Compare} {op : Comparison} {target : Nat}
    (compiles : Compare.Compiles (Expr.Compiles levels) t c items t') (known : names.Known t)
    (isInt : c.isInt names = true) (increasing : Increasing code)
    (located : At code base (items ++ [.jump (some op) (.address target)]))
    (near : farCount base (items ++ [.jump (some op) (.address target)]) = 0) (σ : Store) :
    Tests code names σ base target (base + size items + 3) (do
      let left ← c.left.eval names σ
      let right ← c.right.eval names σ
      return op.holds left right) := by
  obtain ⟨left_, _, right_, _, _, _⟩ := compiles
  simp only [Compare.isInt, Bool.and_eq_true] at isInt
  obtain ⟨rfl, left⟩ := Expr.Compiles.evaluates levels left_ known isInt.1
  obtain ⟨_, right⟩ := Expr.Compiles.evaluates levels right_ known isInt.2
  rcases left.pushes.reaches increasing located.left.left σ [] with ⟨a, isA, first⟩ | ⟨none, stack, failed⟩
  · rcases right.pushes.reaches increasing located.left.right σ [a] with
      ⟨b, isB, second⟩ | ⟨none, stack, failed⟩
    · have jump := step_branch increasing located.right (isFar_of_farCount near)
        (names.machine σ [b, a]) rfl
      simp only [isA, isB]
      refine (first.trans second).trans ?_
      rw [Nat.add_assoc, ← size_append]
      exact .step jump
    · simp only [isA, none]
      exact ⟨stack, first.trans failed⟩
  · simp only [none]
    exact ⟨stack, failed⟩

/-- A comparison with a jump that is taken if it does not hold. -/
theorem Compare.Compiles.tests_negate {c : Compare} {target : Nat}
    (compiles : Compare.Compiles (Expr.Compiles levels) t c items t') (known : names.Known t)
    (isInt : c.isInt names = true) (increasing : Increasing code)
    (located : At code base (items ++ [.jump (some c.relation.negate) (.address target)]))
    (near : farCount base (items ++ [.jump (some c.relation.negate) (.address target)]) = 0)
    (σ : Store) : Tests code names σ base (base + size items + 3) target (c.eval names σ) := by
  have tests := compiles.tests known isInt increasing located near σ
  refine .negate ?_
  simpa [Compare.eval, Comparison.holds_negate, Option.map_bind, Function.comp_def] using tests

variable {holds fails : Nat}

/-- The comparisons of a conjunction. -/
theorem Compare.Chain.tests {cs : List Compare}
    (chain : Compare.Chain (Expr.Compiles levels) fails final t cs items t') (known : names.Known t)
    (isInt : cs.all (Compare.isInt names) = true)
    (decides : Decides final (base + size items) holds fails)
    (increasing : Increasing code) (located : At code base items)
    (near : farCount base items = 0) (σ : Store) :
    Tests code names σ base holds fails (Compare.evalAll names σ cs) := by
  induction chain generalizing base with
  | @last t c items t' compare =>
    have isInt : c.isInt names = true := by simpa using isInt
    have tests : Tests code names σ base holds fails (c.eval names σ) := by
      rcases decides with ⟨rfl, rfl⟩ | ⟨rfl, rfl⟩
      · have tests := compare.tests known isInt increasing located near σ
        simpa [Nat.add_assoc, Compare.eval] using tests
      · have tests := compare.tests_negate known isInt increasing located near σ
        simpa [Nat.add_assoc] using tests
    refine tests.bind fun b => ?_
    cases b with
    | true => exact .holds
    | false => exact .fails
  | @and t c items t1 rest items' t' compare more ih =>
    simp only [List.all_cons, Bool.and_eq_true] at isInt
    rw [List.append_cons] at located near decides
    rw [farCount_append_eq_zero] at near
    have tests := compare.tests_negate known isInt.1 increasing located.left near.1 σ
    refine tests.bind fun b => ?_
    cases b with
    | false => exact .fails
    | true =>
      have widens := compare.outlines.widens
      have rest := ih (known.widen widens) isInt.2 (by simpa [Nat.add_assoc] using decides)
        located.right near.2
      simpa [Nat.add_assoc] using rest

/-- The conjunctions of a condition, of which the last one is followed by a jump to where the
condition fails. -/
theorem Conjunction.Chain.tests {cs : List Conjunction}
    (chain : Conjunction.Chain (Expr.Compiles levels) holds fails
      (fun op => .jump (some op.negate) (.address fails)) t base cs items t')
    (known : names.Known t) (isInt : cs.all (fun c => c.compares.all (Compare.isInt names)) = true)
    (behind : holds = base + size items) (increasing : Increasing code)
    (located : At code base items) (near : farCount base items = 0) (σ : Store) :
    Tests code names σ base holds fails (Conjunction.evalAny names σ cs) := by
  induction chain with
  | last compares =>
    have tests := compares.tests known (by simpa using isInt) (.inr ⟨rfl, behind⟩) increasing located
      near σ
    refine tests.bind fun b => ?_
    cases b with
    | true => exact .holds
    | false => exact .fails
  | @or t base c items t1 rest items' t' compares more ih =>
    simp only [List.all_cons, Bool.and_eq_true] at isInt
    rw [farCount_append_eq_zero] at near
    have tests := compares.tests known isInt.1 (.inl ⟨rfl, rfl⟩) increasing located.left near.1 σ
    refine tests.bind fun b => ?_
    cases b with
    | true => exact .holds
    | false =>
      have widens := compares.widens
      exact ih (known.widen widens) isInt.2 (by simpa [Nat.add_assoc] using behind) located.right
        near.2

/-- A condition leads behind its items if it holds. -/
theorem Disjunction.Guards.tests {c : Disjunction} (guards : c.Guards levels t base items fails t')
    (known : names.Known t) (isInt : c.isInt names = true)
    (increasing : Increasing code) (located : At code base items)
    (near : farCount base items = 0) (σ : Store) :
    Tests code names σ base (base + size items) fails (c.eval names σ) :=
  Conjunction.Chain.tests guards known isInt rfl increasing located near σ

/-! ## Statements without other statements in them -/

/-- Whether items run to the end of a statement, or to its fault. -/
structure Performs (names : Names) (items : List Item) (outcome : Store → Outcome) : Prop where
  sequential : ∀ i ∈ items, i.isSequential = true
  runs : ∀ σ, (∃ σ', outcome σ = .normal σ' ∧
      Items.execute items (names.machine σ []) = .ok (names.machine σ' [])) ∨
    (outcome σ = .fault σ ∧ ∃ stack,
      Items.execute items (names.machine σ []) = .error (.divideByZero, names.machine σ stack))

variable {value : Store → Option Int32} {rest : List Item} {name : String} {e : Entity}

/-- A value and what is done with it. -/
theorem Pushes.performs {f : Store → Int32 → Store} (pushes : Pushes names items value)
    (sequential : ∀ i ∈ rest, i.isSequential = true)
    (runs : ∀ σ v, execute rest (names.machine σ [v]) = .ok (names.machine (f σ v) [])) :
    Performs names (items ++ rest) fun σ => .withValue σ (value σ) fun v => .normal (f σ v) where
  sequential i member := by
    rcases List.mem_append.mp member with member | member
    · exact (pushes .initial).sequential i member
    · exact sequential i member
  runs σ := by
    rcases pushes.andThen rest σ [] with ⟨v, found, run⟩ | ⟨none, stack, failed⟩
    · refine .inl ⟨f σ v, by simp [found, Outcome.withValue], ?_⟩
      rw [run, runs]
    · exact .inr ⟨by simp [none, Outcome.withValue], stack, failed⟩

section

variable (denotes : names.Denotes name e)

include denotes

/-- Storing to a name assigns to it. -/
theorem Names.Denotes.stores (known : names.Known t) (id : EntityId)
    (storable : (ofEntity id e).result.isVariable = true) :
    (∀ i ∈ (ofEntity id e).result.storeItems, i.isSequential = true) ∧
      ∀ σ v, execute (ofEntity id e).result.storeItems (names.machine σ [v]) =
        .ok (names.machine (names.assign σ name v) []) := by
  cases denotes with
  | @localVar i slot kind level adr =>
    obtain ⟨inside, _⟩ := List.getElem?_eq_some_iff.mp slot
    have fits := known.localsFit
    have items : (ofEntity id e).result.storeItems = [.store i] := by
      simp [ofEntity, kindOf, storeItems, kind, level, adr]
    rw [items]
    refine ⟨by simp, fun σ v => execute_singleton ?_⟩
    rw [Item.execute_store (by omega) (by omega), Names.pop_machine,
      Names.setLocal_machine known.locals slot]
    simp [Names.assign, List.mem_of_getElem? slot]
  | constant visible found kind =>
    simp [ofEntity, kindOf, isVariable, kind] at storable
  | @globalVar i visible noConstant slot kind level adr =>
    obtain ⟨inside, _⟩ := List.getElem?_eq_some_iff.mp slot
    have fits := known.globalsFit
    have items : (ofEntity id e).result.storeItems =
        [.plain .putStatic [(i : Int)] ⟨rfl, rfl⟩] := by
      simp [ofEntity, kindOf, storeItems, kind, level, adr]
    rw [items]
    refine ⟨by simp, fun σ v => execute_singleton ?_⟩
    rw [Item.execute_putStatic (by omega) (by omega), Names.pop_machine,
      Names.setGlobal_machine known.globals slot]
    simp [Names.assign, visible]

/-- A name needs no address on the stack. -/
theorem Names.Denotes.keepItems (id : EntityId) :
    (Operand.ofEntity id e).result.keepItems = [] := by
  cases denotes <;> simp [Operand.ofEntity, Operand.kindOf, Operand.keepItems, *]

/-- A variable with a name is reached by its instructions and has no address on the stack. -/
theorem Names.Denotes.reachable (known : names.Known t) (id : EntityId)
    (storable : (ofEntity id e).result.isVariable = true) :
    (ofEntity id e).result.Reachable ∧
      (ofEntity id e).result.addressSize = 0 := by
  have fits := known.localsFit
  cases denotes with
  | @localVar i slot kind level adr =>
    obtain ⟨inside, _⟩ := List.getElem?_eq_some_iff.mp slot
    refine ⟨⟨storable, fun _ => ?_⟩, ?_⟩
    · rw [show (ofEntity id e).result.adr = i by
        simp [ofEntity, kindOf, kind, level, adr]]
      omega
    · simp [ofEntity, kindOf, addressSize, kind, level]
  | constant visible found kind =>
    simp [ofEntity, kindOf, isVariable, kind] at storable
  | globalVar visible noConstant slot kind level adr =>
    exact ⟨⟨storable, by simp [ofEntity, kindOf, kind, level]⟩,
      by simp [ofEntity, kindOf, addressSize, kind, level]⟩

/-- Stepping a name adds to it. -/
theorem Names.Denotes.steps (known : names.Known t) (id : EntityId)
    (storable : (ofEntity id e).result.isVariable = true) (up : Bool) :
    Performs names ((ofEntity id e).result.stepItems up) fun σ =>
      .normal (names.assign σ name (names.value σ name + if up then 1 else -1)) := by
  obtain ⟨reachable, size⟩ := denotes.reachable known id storable
  refine ⟨fun i member => reachable.sequential up i (List.mem_append_left _ member),
    fun σ => .inl ⟨_, rfl, ?_⟩⟩
  have read : execute ((ofEntity id e).result.keepItems ++
      (ofEntity id e).result.loadItems) (names.machine σ []) =
        .ok ((names.machine σ []).push (names.value σ name)) := by
    rw [denotes.keepItems]
    exact (denotes.evaluated known id σ).reads.runs _ ⟨[], rfl⟩
  rw [reachable.step up (List.nil_append _).symm size.symm, Reachable.execute_update read]
  exact (denotes.stores known id storable).2 σ _

end

private theorem execute_print (width value : Int32) :
    execute [.const width.toInt, .plain .print [] ⟨rfl, rfl⟩] (names.machine σ [value]) =
      .ok (names.machine (σ.print (rightAligned width (decimal value))) []) := by
  rw [execute, Item.execute_const]
  rfl

/-- A statement without items. -/
theorem Performs.nothing : Performs names [] .normal :=
  ⟨by simp, fun σ => .inl ⟨σ, rfl, rfl⟩⟩

/-- The width that the compiler chooses is the one that is meant. -/
theorem Evaluates.width {x : Operand} {e : Expr}
    (evaluates : Evaluates names items x value (e.constant? names)) (width : Option Int32) :
    width.getD (Compile.defaultWidth x) = printWidth names e width := by
  cases width with
  | some width => rfl
  | none =>
    have constant := evaluates.constant
    by_cases isConstant : x.kind = .con
    · simp [printWidth, constant, Compile.defaultWidth, Compile.digitCount, isConstant,
        evaluates.type]
    · simp [printWidth, constant, Compile.defaultWidth, isConstant]

theorem UpdateOp.isSequential_item (op : UpdateOp) : op.item.isSequential = true := by
  rcases op with op | op <;> cases op <;> rfl

theorem UpdateOp.execute_item (op : UpdateOp) : op.item.execute = Machine.binary op.apply := by
  cases op with
  | add op => exact op.execute_item
  | mul op => exact op.execute_item

/-- A statement with no other one in it. -/
theorem Stmt.CompilesIn.performs {place : Place} {s : Stmt} (noLoop : place.inLoop = false)
    (compiles : Stmt.CompilesIn (Stmt.Compiles 0) (Expr.Compiles levels) place t base s items t')
    (known : names.Known t) (isInt : s.isInt names = true) (rounds : Nat) :
    Performs names items (s.exec names rounds) := by
  cases compiles with
  | @assign d e _ _ _ _ _ _ designator value storable valued assignable =>
    obtain ⟨name, selectors⟩ := d
    cases selectors with
    | cons => simp [Stmt.isInt] at isInt
    | nil =>
      simp only [Stmt.isInt, Bool.and_eq_true] at isInt
      obtain ⟨id, rfl, rfl, rfl, type, denotes⟩ := designator.ofName known isInt.1
      obtain ⟨_, evaluates⟩ := Expr.Compiles.evaluates levels value known isInt.2
      obtain ⟨sequential, stores⟩ := denotes.stores known id storable
      simpa [Stmt.exec] using evaluates.pushes.performs sequential stores
  | @update d op e _ _ _ _ _ _ designator value storable valued ints =>
    obtain ⟨name, selectors⟩ := d
    cases selectors with
    | cons => simp [Stmt.isInt] at isInt
    | nil =>
      simp only [Stmt.isInt, Bool.and_eq_true] at isInt
      obtain ⟨id, rfl, rfl, rfl, type, denotes⟩ := designator.ofName known isInt.1
      obtain ⟨_, evaluates⟩ := Expr.Compiles.evaluates levels value known isInt.2
      obtain ⟨sequential, stores⟩ := denotes.stores known id storable
      have kept := denotes.keepItems id
      have sum : Pushes names _ fun σ => (e.eval names σ).bind (op.apply (names.value σ name)) :=
        fun σ => by
          rw [ofQuotient_bind]
          exact (denotes.evaluated known id σ).reads.operator (evaluates.pushes σ)
            op.isSequential_item op.execute_item
      simpa [Stmt.exec, kept] using sum.performs sequential stores
  | @step d up _ _ _ designator storable int =>
    obtain ⟨name, selectors⟩ := d
    cases selectors with
    | cons => simp [Stmt.isInt] at isInt
    | nil =>
      obtain ⟨id, rfl, rfl, rfl, type, denotes⟩ := designator.ofName known isInt
      simpa [Stmt.exec] using denotes.steps known id storable up
  | @print e width items x _ value valued printable =>
    obtain ⟨_, evaluates⟩ := Expr.Compiles.evaluates levels value known isInt
    rw [evaluates.width, if_pos evaluates.type]
    exact evaluates.pushes.performs (by simp) fun σ v => execute_print _ v
  | empty => exact .nothing
  | block sequence =>
    cases sequence with
    | nil => exact .nothing
    | cons impossible => exact impossible.elim
  | leave inLoop => simp [noLoop] at inLoop
  | call | yieldNothing | yieldValue | read => simp [Stmt.isInt] at isInt
  | ifThen _ impossible => exact impossible.elim
  | ifElse _ impossible => exact impossible.elim
  | loop _ impossible => exact impossible.elim

end Syntax

end MicroJava

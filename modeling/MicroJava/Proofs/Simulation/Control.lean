import MicroJava.Proofs.Simulation.Statement

/-! # Compiled control flow follows the statements

Running the code of statements takes the machine to where evaluating the statements ends: behind the
code, to the exit of the loop around it, or to a fault. Where evaluation runs out of rounds, the
machine has made at least as many steps and still runs, so that a program that goes on for ever has
code that does too.
-/

namespace MicroJava.Syntax

open Machine Items

variable {code : List Instruction} {names : Names} {σ : Store} {t t' : SymbolTable}
  {items : List Item} {base levels : Nat} {exit : Option Nat}

/-- Whether a machine gets from a state to the outcome of statements. After them it is at `next`, and
after a `break` at `exit`. With too few rounds it still runs after at least `bound` steps. -/
def Simulates (code : List Instruction) (names : Names) (bound : Nat) (exit : Option Nat)
    (next : Nat) (s : State) : Outcome → Prop
  | .normal σ => Reaches code s (.running next (names.machine σ []))
  | .leave σ => ∃ adr, exit = some adr ∧ Reaches code s (.running adr (names.machine σ []))
  | .fault σ => ∃ stack, Reaches code s (.faulted .divideByZero (names.machine σ stack))
  | .timeout σ =>
    ∃ n pc stack, bound ≤ n ∧ (step code)^[n] s = .running pc (names.machine σ stack)

namespace Simulates

variable {bound next mid : Nat} {s s1 : State} {o : Outcome}

theorem prepend (first : Reaches code s s1) (rest : Simulates code names bound exit next s1 o) :
    Simulates code names bound exit next s o := by
  cases o with
  | normal => exact .trans first rest
  | leave =>
    obtain ⟨adr, exits, rest⟩ := rest
    exact ⟨adr, exits, first.trans rest⟩
  | fault =>
    obtain ⟨stack, rest⟩ := rest
    exact ⟨stack, first.trans rest⟩
  | timeout =>
    obtain ⟨n, pc, stack, late, rest⟩ := rest
    obtain ⟨k, rfl⟩ := first
    exact ⟨n + k, pc, stack, by omega, by rw [Function.iterate_add_apply, rest]⟩

/-- Every step counts. -/
theorem afterStep (first : step code s = s1) (rest : Simulates code names bound exit next s1 o) :
    Simulates code names (bound + 1) exit next s o := by
  cases o with
  | timeout =>
    obtain ⟨n, pc, stack, late, rest⟩ := rest
    exact ⟨n + 1, pc, stack, by omega, by rw [Function.iterate_succ_apply, first, rest]⟩
  | _ =>
    have moved : Simulates code names bound exit next s _ := prepend (.step first) rest
    exact moved

theorem mono (simulates : Simulates code names bound exit next s o) {fewer : Nat}
    (le : fewer ≤ bound) : Simulates code names fewer exit next s o := by
  cases o with
  | timeout =>
    obtain ⟨n, pc, stack, late, rest⟩ := simulates
    exact ⟨n, pc, stack, by omega, rest⟩
  | _ => exact simulates

theorem andThen (first : Simulates code names bound exit mid s o) {more : Store → Outcome}
    (rest : ∀ σ, Simulates code names bound exit next (.running mid (names.machine σ [])) (more σ)) :
    Simulates code names bound exit next s (o.andThen more) := by
  cases o with
  | normal σ => exact prepend first (rest σ)
  | _ => exact first

theorem thenJump (first : Simulates code names bound exit mid s o)
    (jump : ∀ m, step code (.running mid m) = .running next m) :
    Simulates code names bound exit next s o := by
  cases o with
  | normal σ => exact .trans first (.step (jump _))
  | _ => exact first

/-- Going on after a test. -/
theorem withValue {yes no : Nat} {result : Option Bool} {more : Bool → Outcome}
    (tests : Tests code names σ base yes no result)
    (rest : ∀ b, Simulates code names bound exit next
      (.running (if b then yes else no) (names.machine σ [])) (more b)) :
    Simulates code names bound exit next (.running base (names.machine σ []))
      (.withValue σ result more) := by
  cases result with
  | none => exact tests
  | some b => exact prepend tests (rest b)

end Simulates

theorem Performs.simulates {outcome : Store → Outcome} (performs : Performs names items outcome)
    (increasing : Increasing code) (located : At code base items) (bound : Nat)
    (σ : Store) :
    Simulates code names bound exit (base + size items) (.running base (names.machine σ []))
      (outcome σ) := by
  obtain ⟨n, run⟩ := run_sequence increasing located performs.sequential (names.machine σ [])
  rcases performs.runs σ with ⟨σ', ends, done⟩ | ⟨ends, stack, failed⟩
  · rw [done] at run
    rw [ends]
    exact ⟨n, run⟩
  · rw [failed] at run
    rw [ends]
    exact ⟨stack, n, run⟩

/-! ## Loops -/

/-- The rounds of a loop whose body ends at a jump back to the condition. Each round makes at least
the step of this jump, hence the bound. -/
theorem iterate_simulates {condition : Store → Option Bool} {body : Store → Outcome}
    {yes no back rounds : Nat} (tests : ∀ σ, Tests code names σ base yes no (condition σ))
    (runs : ∀ σ, Simulates code names rounds (some no) back (.running yes (names.machine σ []))
      (body σ)) (jump : ∀ m, step code (.running back m) = .running base m) {left : Nat}
    (le : left ≤ rounds) (σ : Store) :
    Simulates code names left exit no (.running base (names.machine σ []))
      (iterate condition body left σ) := by
  induction left generalizing σ with
  | zero => exact ⟨0, base, [], Nat.le_refl 0, rfl⟩
  | succ left ih =>
    refine .withValue (tests σ) fun holds => ?_
    cases holds with
    | false => exact .refl
    | true =>
      have round := runs σ
      cases outcome : body σ with
      | normal σ' =>
        rw [outcome] at round
        exact .prepend round (.afterStep (jump _) (ih (by omega) σ'))
      | leave σ' =>
        rw [outcome] at round
        obtain ⟨adr, exits, leaves⟩ := round
        obtain rfl := Option.some.inj exits
        exact leaves
      | fault σ' =>
        rw [outcome] at round
        exact round
      | timeout σ' =>
        rw [outcome] at round
        exact round.mono le

/-! ## Statements -/

theorem Stmt.execAll_singleton (names : Names) (rounds : Nat) (s : Stmt) (σ : Store) :
    Stmt.execAll names rounds [s] σ = s.exec names rounds σ := by
  rw [Stmt.execAll]
  cases s.exec names rounds σ <;> rfl

/-- The machine runs the items of statements to where evaluating the statements ends. -/
theorem Stmt.Layout.simulates {returns : TypeId} {body : List Stmt}
    (layout : Stmt.Layout returns exit t base body items t') (known : names.Known t)
    (isInt : Stmt.listIsInt names body = true) (increasing : Increasing code)
    (located : At code base items) (near : farCount base items = 0) (rounds : Nat) (σ : Store) :
    Simulates code names rounds exit (base + size items) (.running base (names.machine σ []))
      (Stmt.execAll names rounds body σ) := by
  induction layout generalizing σ with
  | nil => exact .refl
  | simple first more ih =>
    rename_i levels
    have contained := Stmt.CompilesIn.contained (Stmt.Compiles.contained 0) first
    simp only [Stmt.listIsInt, Bool.and_eq_true] at isInt
    rw [farCount_append_eq_zero] at near
    have performs := Stmt.CompilesIn.performs rfl first known isInt.1 rounds
    have rest := ih (known.widen contained.widens) isInt.2 located.right near.2
    rw [size_append, ← Nat.add_assoc]
    exact (performs.simulates increasing located.left rounds σ).andThen rest
  | block body_ more ihBody ih =>
    simp only [Stmt.listIsInt, Stmt.isInt, Bool.and_eq_true] at isInt
    rw [farCount_append_eq_zero] at near
    have inner := ihBody known isInt.1 located.left near.1
    have rest := ih (known.widen body_.widens) isInt.2 located.right near.2
    rw [size_append, ← Nat.add_assoc]
    exact (inner σ).andThen rest
  | leave more ih =>
    have near := farCount_cons_eq_zero.mp near
    exact ⟨_, rfl, .step (step_jump increasing located near.1 _)⟩
  | @ifThen exit t base c guard t1 body items1 t2 rest items2 t' levels condition then_ more ihThen ih =>
    simp only [Stmt.listIsInt, Stmt.isInt, Bool.and_eq_true] at isInt
    simp only [farCount_append_eq_zero] at near
    have known1 := known.widen condition.widens
    have tests := condition.tests known isInt.1.1 increasing located.left near.1 σ
    have inner := ihThen known1 (by simp [Stmt.listIsInt, isInt.1.2]) located.right.left near.2.1
    have rest := ih (known1.widen then_.widens) isInt.2 located.right.right near.2.2
    simp only [size_append, ← Nat.add_assoc]
    refine .andThen (.withValue tests fun holds => ?_) rest
    cases holds with
    | true => simpa [Stmt.execAll_singleton] using inner σ
    | false => exact .refl
  | @ifElse exit t base c guard t1 body items1 t2 other items2 t3 rest items3 t' levels condition then_
      else_ more ihThen ihElse ih =>
    simp only [Stmt.listIsInt, Stmt.isInt, Bool.and_eq_true] at isInt
    simp only [farCount_append_eq_zero, farCount_cons_eq_zero, Item.size_jump] at near
    obtain ⟨⟨⟨conditionInt, bodyInt⟩, otherInt⟩, restInt⟩ := isInt
    obtain ⟨nearGuard, nearThen, nearJump, nearElse, nearRest⟩ := near
    have known1 := known.widen condition.widens
    have known2 := known1.widen then_.widens
    have tests := condition.tests known conditionInt increasing located.left nearGuard σ
    have inner := ihThen known1 (by simp [Stmt.listIsInt, bodyInt]) located.right.left nearThen
    have behind := located.right.right
    have jump := step_jump increasing behind nearJump
    have inner' := ihElse known2 (by simp [Stmt.listIsInt, otherInt]) behind.tail.left nearElse
    have rest := ih (known2.widen else_.widens) restInt behind.tail.right nearRest
    simp only [size_append, size_cons, Item.size_jump, ← Nat.add_assoc]
    refine .andThen (.withValue tests fun holds => ?_) rest
    cases holds with
    | true => simpa [Stmt.execAll_singleton] using (inner σ).thenJump jump
    | false => simpa [Stmt.execAll_singleton] using inner' σ
  | @loop exit t base c guard t1 body items1 t2 rest items2 t' levels condition body_ more ihBody ih =>
    simp only [Stmt.listIsInt, Stmt.isInt, Bool.and_eq_true] at isInt
    simp only [farCount_append_eq_zero, farCount_cons_eq_zero, Item.size_jump] at near
    obtain ⟨⟨conditionInt, bodyInt⟩, restInt⟩ := isInt
    obtain ⟨nearGuard, nearBody, nearJump, nearRest⟩ := near
    have known1 := known.widen condition.widens
    have behind := located.right.right
    have jump := step_jump increasing behind nearJump
    have tests := condition.tests known conditionInt increasing located.left nearGuard
    have inner := ihBody known1 (by simp [Stmt.listIsInt, bodyInt]) located.right.left nearBody
    have rest := ih (known1.widen body_.widens) restInt behind.tail nearRest
    simp only [Stmt.execAll_singleton] at inner
    simp only [size_append, size_cons, Item.size_jump, ← Nat.add_assoc]
    exact (iterate_simulates tests inner jump (Nat.le_refl rounds) σ).andThen rest

end MicroJava.Syntax

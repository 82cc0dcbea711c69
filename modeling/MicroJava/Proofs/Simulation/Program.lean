import MicroJava.Proofs.Run.Source
import MicroJava.Proofs.Simulation.Control
import MicroJava.Proofs.Simulation.Names
import MicroJava.Proofs.Syntax.Unambiguous

/-! # Compiled programs behave as they are meant

The code of a program with integers is the code of `main` alone. The machine sets up its frame, runs
its statements as they are meant, and returns. So the code comes to its end with the globals and the
output of the program, meets the fault of a division where the program does, and goes on for ever
with the same output where the program does.
-/

namespace MicroJava.Syntax

open SymbolTable Machine Items

variable {consts : List (String × Int32)}

/-! ## The code of `main` -/

/-- The variables of a scope are as many as were declared. -/
theorem Declaring.varCount {outer : List Scope} {vars : List String} {t : SymbolTable}
    (declaring : Declaring outer vars consts t) : t.varCount = vars.length := by
  obtain ⟨⟨s, scopes, lists⟩, orderly, _⟩ := declaring
  have current := orderly s outer (scopes ▸ List.suffix_rfl)
  rw [← lists.vars, List.length_map, ← current.count]
  simp [SymbolTable.varCount, scopes]

/-- Whether items are those of statements, compiled where every name is known. -/
structure IsBody (names : Names) (body : List Stmt) (items : List Item) : Prop where
  near : Items.farCount 3 items = 0
  laidOut : ∃ returns t t', names.Known t ∧ Stmt.Layout returns none t 3 body items t'

/-- The code of `main`, whose variables are declared after the globals. -/
theorem Method.Compiles.main {limits : Limits} {m : Method} {outermost : Scope} {vars : List String}
    {t t' : SymbolTable} {items : List Item} (compiles : m.Compiles limits.clamped t 0 items t')
    (declaring : Declaring [outermost] vars consts t) (globalsFit : vars.length ≤ 0x7fff)
    (noResult : m.result = none) (named : m.name = "main") (noParameters : m.parameters = none)
    (localsInt : m.locals.all (·.type.isInt) = true) :
    ∃ inside, items = methodItems 0 (m.locals.flatMap VarDecl.names).length inside .none ∧
      IsBody ⟨m.locals.flatMap VarDecl.names, vars, consts⟩ m.body inside := by
  obtain ⟨result, fresh, parameters, locals, capacity, main, sequence, near⟩ := compiles
  rw [noResult] at result
  cases result
  rw [noParameters] at parameters
  cases parameters
  obtain ⟨_, noParameter⟩ := main named
  rw [noParameter] at near ⊢
  obtain ⟨s, lists, opened⟩ := declaring.openMethod fresh .none 0 _
  have globalLists := lists.congr fun id member =>
    (locals.preserves (hereditary_persists _) (.refl _)).entity id
      (opened.orderly.inside (by obtain ⟨_, scopes, _⟩ := opened.current; simp [scopes]) member)
  have declared := locals.declaring localsInt opened
  rw [List.nil_append] at declared
  have count := declared.varCount
  obtain ⟨⟨l, scopes, localLists⟩, orderly, _⟩ := declared
  have known : Names.Known ⟨m.locals.flatMap VarDecl.names, vars, consts⟩ _ :=
    Names.known orderly scopes localLists globalLists
      (by simp only [Limits.clamped, Limits.supported] at capacity; omega) globalsFit
  have laidOut := sequence.layout (Stmt.Compiles.layout _) (show false = Option.isSome none from rfl)
  have contained := sequence.contained (Stmt.Compiles.contained _)
  rw [resolve_eq_self (contained.leads.without (by simp [Place.exits]))] at laidOut
  simp only [methodItems, List.cons_append, farCount_cons_eq_zero, farCount_append_eq_zero] at near
  rw [count]
  exact ⟨_, rfl, near.2.1, _, _, _, known, laidOut⟩

variable {p : Program} {c : CodeBuffer} {inside : List Item}

/-- Whether code is that of a program whose only method is `main`. -/
structure Program.IsMainCode (p : Program) (c : CodeBuffer) (inside : List Item) : Prop where
  isInt : Stmt.listIsInt p.names (p.methods.flatMap Method.body) = true
  isBody : IsBody p.names (p.methods.flatMap Method.body) inside
  instructions : c.instructions =
    Items.instructions 0 (methodItems 0 p.names.locals.length inside .none)
  entry : c.entry = some 0
  dataSize : c.dataSize = p.names.globals.length

theorem Program.Yields.isMainCode {limits : Limits} {source : List Char}
    {globals final : SymbolTable} {segments : List (List Item)}
    (yields : p.Yields limits source globals final segments c) (isInt : p.isInt = true) :
    ∃ inside, p.IsMainCode c inside := by
  simp only [Program.isInt, Bool.and_eq_true] at isInt
  obtain ⟨declsInt, methodsInt⟩ := isInt
  split at methodsInt
  next m methods =>
    simp only [Bool.and_eq_true, Option.isNone_iff_eq_none, beq_iff_eq] at methodsInt
    obtain ⟨⟨⟨⟨noResult, named⟩, noParameters⟩, localsInt⟩, bodyInt⟩ := methodsInt
    have bytes := yields.bytes
    have entry := yields.entry
    have compileAll := yields.methods
    rw [methods] at compileAll entry
    obtain _ | ⟨compiles, _ | _⟩ := compileAll
    obtain ⟨outermost, started⟩ := Program.start_declaring yields.fresh
    have declaring := yields.decls.declaring declsInt started
    have count := declaring.varCount
    have fit : globals.varCount ≤ 0x7fff :=
      Nat.le_trans yields.capacity (Nat.min_le_right _ _)
    have names : p.names = ⟨m.locals.flatMap VarDecl.names, p.decls.flatMap Decl.varNames,
        p.decls.filterMap Decl.constant?⟩ := by simp [Program.names, methods]
    have body : p.methods.flatMap Method.body = m.body := by simp [methods]
    obtain ⟨inside, rfl, isBody⟩ :=
      compiles.main declaring (count ▸ fit) noResult named noParameters localsInt
    refine ⟨inside, ?_, ?_, ?_, ?_, ?_⟩
    · rw [body]
      exact bodyInt
    · rw [body, names]
      exact isBody
    · rw [CodeBuffer.instructions_eq bytes, List.flatten_singleton, names]
    · simpa [entryAfter, named] using entry
    · rw [yields.dataSize, count, names, List.nil_append]
  next => cases methodsInt

/-! ## Running the code of `main` -/

namespace Program.IsMainCode

variable (code : p.IsMainCode c inside)
include code

theorem increasing : Increasing c.instructions := by
  rw [code.instructions]
  exact pairwise_instructions 0 _

theorem located : At c.instructions 0 (methodItems 0 p.names.locals.length inside .none) :=
  ⟨[], [], by simp [code.instructions]⟩

/-- The machine sets up the frame of `main` first. -/
theorem reaches_body :
    Reaches c.instructions (Machine.start c) (.running 3 (p.names.machine .initial [])) := by
  obtain ⟨_, _, _, known, _⟩ := code.isBody.laidOut
  have fit := known.localsFit
  have enters : (Item.plain .enter [((0 : Nat) : Int), p.names.locals.length] ⟨rfl, rfl⟩).execute =
      enterFrame 0 p.names.locals.length := by
    rw [Item.execute_of_fits (by simp [Opcode.widths, Width.Fits, Width.bytes]; omega)]
    rfl
  rw [Machine.start, code.entry]
  refine .step ?_
  rw [step_sequential code.increasing code.located rfl, enters, code.dataSize]
  simp [enterFrame, goOn, Names.machine, Store.initial, Item.size, Item.opcode, Opcode.size,
    Opcode.operandBytes, Opcode.widths, Width.bytes]

/-- The machine runs the statements of `main` as they are meant. -/
theorem simulates (rounds : Nat) :
    Simulates c.instructions p.names rounds none (3 + size inside) (Machine.start c)
      (p.run rounds) := by
  obtain ⟨_, _, _, known, layout⟩ := code.isBody.laidOut
  exact .prepend code.reaches_body (layout.simulates known code.isInt code.increasing
    code.located.left.tail code.isBody.near rounds .initial)

/-- After its statements `main` returns. -/
theorem reaches_end (σ : Store) :
    Reaches c.instructions (.running (3 + size inside) (p.names.machine σ []))
      (.finished { p.names.machine σ [] with frames := [], locals := [] }) := by
  have located := code.located.right
  rw [size_cons, Nat.zero_add] at located
  refine .trans (.step (step_sequential code.increasing located rfl _)) (.step ?_)
  exact step_at code.increasing located.tail

/-- Code behaves as its program does. -/
theorem behaves {b : Behaviour} (meant : p.Behaves b) : c.Behaves b := by
  cases b with
  | finished globals output =>
    obtain ⟨rounds, σ, ends, rfl, rfl⟩ := meant
    have run := code.simulates rounds
    rw [ends] at run
    obtain ⟨n, done⟩ := Reaches.trans run (code.reaches_end σ)
    exact ⟨n, _, done, rfl, rfl⟩
  | faulted globals output =>
    obtain ⟨rounds, σ, ends, rfl, rfl⟩ := meant
    have run := code.simulates rounds
    rw [ends] at run
    obtain ⟨stack, n, done⟩ := run
    exact ⟨n, _, done, rfl, rfl⟩
  | diverges shown =>
    obtain ⟨forever, rfl⟩ := meant
    have late (n : Nat) : ∃ σ k pc stack, p.run n = .timeout σ ∧ n ≤ k ∧
        after c k = .running pc (p.names.machine σ stack) := by
      obtain ⟨σ, ends⟩ := forever n
      have run := code.simulates n
      rw [ends] at run
      obtain ⟨k, pc, stack, later, runs⟩ := run
      exact ⟨σ, k, pc, stack, ends, later, runs⟩
    constructor
    · intro n
      obtain ⟨σ, k, pc, stack, _, later, runs⟩ := late n
      cases now : after c n with
      | running pc m => exact ⟨pc, m, rfl⟩
      | finished | faulted =>
        rw [after_eq_of_le (by rw [now]; rfl) later, now] at runs
        cases runs
    · ext text
      constructor
      · rintro ⟨rounds, σ, ends, shown⟩
        have run := code.simulates rounds
        rw [ends] at run
        obtain ⟨n, pc, stack, _, runs⟩ := run
        have output : (after c n).machine.output = σ.output := congrArg (·.machine.output) runs
        exact ⟨n, output ▸ shown⟩
      · rintro ⟨n, shown⟩
        obtain ⟨σ, k, pc, stack, ends, later, runs⟩ := late n
        have output : (after c k).machine.output = σ.output := congrArg (·.machine.output) runs
        exact ⟨n, σ, ends, output ▸ shown.trans (after_output c later)⟩

/-- A program comes to its end, meets a fault or goes on for ever. -/
theorem exists_behaves : ∃ b, p.Behaves b := by
  by_cases forever : ∀ rounds, ∃ σ, p.run rounds = .timeout σ
  · exact ⟨.diverges _, forever, rfl⟩
  · obtain ⟨rounds, ends⟩ := not_forall.mp forever
    have run := code.simulates rounds
    cases outcome : p.run rounds with
    | normal σ => exact ⟨.finished _ _, rounds, σ, outcome, rfl, rfl⟩
    | fault σ => exact ⟨.faulted _ _, rounds, σ, outcome, rfl, rfl⟩
    | timeout σ => exact absurd ⟨σ, outcome⟩ ends
    | leave σ =>
      -- No `break` stands outside of a loop.
      rw [outcome] at run
      obtain ⟨_, impossible, _⟩ := run
      cases impossible

/-- The code of a program behaves in the one way in which the program does. -/
theorem behaves_iff (b : Behaviour) : c.Behaves b ↔ p.Behaves b := by
  refine ⟨fun runs => ?_, code.behaves⟩
  obtain ⟨other, meant⟩ := code.exists_behaves
  rwa [runs.unique (code.behaves meant)]

end Program.IsMainCode

end MicroJava.Syntax

namespace MicroJava

open Syntax

/-- The code of a program with integers that compiles without problems behaves in one way, which is
the way in which the program behaves. -/
theorem Compilation.run_behaves {limits : Limits} {source : List Char} {p : Program}
    {code : CodeBuffer} (tree : p.IsTreeOf source) (isInt : p.isInt = true)
    (accepted : Compilation.run limits source = .ok ⟨code, []⟩) :
    ∃ b, (∀ other, p.Behaves other ↔ other = b) ∧ ∀ other, code.Behaves other ↔ other = b := by
  obtain ⟨s, _, rfl, _, _, _, _, yields, _⟩ := Compilation.yields_of_accepted accepted
  obtain rfl := tree.unique yields.tree
  obtain ⟨inside, main⟩ := yields.isMainCode isInt
  obtain ⟨b, meant⟩ := main.exists_behaves
  have only (other : Behaviour) : s.code.Behaves other ↔ other = b := by
    refine ⟨fun runs => runs.unique (main.behaves meant), ?_⟩
    rintro rfl
    exact main.behaves meant
  exact ⟨b, fun other => (main.behaves_iff other).symm.trans (only other), only⟩

/-- A program that adds up numbers in a loop with a way out in the middle. -/
def sumSource : List Char :=
  "program Sum final int last = 3; int sum;\n\x7b void main() int i; \x7b while (i < 9) \x7b sum += i; if (i == last) break; else i++; \x7d print(sum, 4); \x7d \x7d".toList

def sumProgram : Program :=
  let value (f : Factor) : Expr := .mk false (.mk f []) []
  let name (n : String) : Expr := value (.value (.mk n []))
  let compare (left : Expr) (op : Comparison) (right : Expr) : Disjunction :=
    ⟨⟨⟨left, op, right⟩, []⟩, []⟩
  ⟨"Sum", [.const ⟨"int", false⟩ "last" (.number 3), .vars ⟨⟨"int", false⟩, "sum", []⟩],
    [⟨none, "main", none, [⟨⟨"int", false⟩, "i", []⟩],
      [.loop (compare (name "i") .lt (value (.number 9)))
        (.block [.update (.mk "sum" []) (.add .plus) (name "i"),
          .ifElse (compare (name "i") .eq (name "last")) .leave (.step (.mk "i" []) true)]),
      .print (name "sum") (some 4)]⟩]⟩

theorem Compilation.run_behaves_sum : ∃ code,
    Compilation.run .supported sumSource = .ok ⟨code, []⟩ ∧ sumProgram.IsTreeOf sumSource ∧
      sumProgram.isInt = true ∧ code.Behaves (.finished [6] "   6".toList) := by
  obtain ⟨code, accepted⟩ :=
    Compilation.accepted_of_diagnostics .supported sumSource (by decide +kernel)
  have tree : sumProgram.IsTreeOf sumSource := by decide +kernel
  have isInt : sumProgram.isInt = true := by decide +kernel
  obtain ⟨b, meant, runs⟩ := Compilation.run_behaves tree isInt accepted
  have behaves : sumProgram.Behaves (.finished [6] "   6".toList) := by
    refine ⟨9, _, rfl, ?_, ?_⟩ <;> decide +kernel
  exact ⟨code, accepted, tree, isInt, (runs _).mpr ((meant _).mp behaves)⟩

end MicroJava

import MicroJava.Proofs.Code.Decode
import MicroJava.Proofs.Coupling.Source
import MicroJava.Proofs.Translation.Condition

/-! # Conditions are evaluated from left to right and no further than needed

A condition is compiled to the operands of its comparisons with a conditional jump after each pair.
Whatever values the operands have, running that code leads to where the condition holds if it does
and to where it fails otherwise, and it evaluates exactly the comparisons that decide the outcome.
-/

namespace MicroJava

open Items List Compile

namespace Syntax

/-! ## What a condition means -/

/-- Whether comparisons all hold, the first of them between the values with number `j`. -/
def Compare.allHold (values : Nat → Int32 × Int32) : (j : Nat) → List Compare → Bool
  | _, [] => true
  | j, c :: rest => c.relation.holds (values j).1 (values j).2 && allHold values (j + 1) rest

/-- Whether one of some conjunctions holds, the first of them with number `i`. -/
def Conjunction.anyHolds (values : Nat → Nat → Int32 × Int32) : (i : Nat) → List Conjunction → Bool
  | _, [] => false
  | i, c :: rest => Compare.allHold (values i) 0 c.compares || anyHolds values (i + 1) rest

/-- Whether a condition holds when the operands of comparison `j` of its conjunction `i` have the
values `values i j`. -/
def Disjunction.holds (c : Disjunction) (values : Nat → Nat → Int32 × Int32) : Bool :=
  Conjunction.anyHolds values 0 c.conjunctions

/-- The comparisons that are evaluated up to the first that does not hold. -/
def Compare.evaluated (values : Nat → Int32 × Int32) : (j : Nat) → List Compare → List Nat
  | _, [] => []
  | j, c :: rest =>
    j :: if c.relation.holds (values j).1 (values j).2 then evaluated values (j + 1) rest else []

/-- The comparisons that are evaluated up to the first conjunction that holds. -/
def Conjunction.evaluated (values : Nat → Nat → Int32 × Int32) :
    (i : Nat) → List Conjunction → List (Nat × Nat)
  | _, [] => []
  | i, c :: rest =>
    (Compare.evaluated (values i) 0 c.compares).map (fun j => (i, j)) ++
      if Compare.allHold (values i) 0 c.compares then [] else evaluated values (i + 1) rest

/-- The comparisons of a condition that are evaluated from left to right until the outcome is
known. -/
def Disjunction.evaluated (c : Disjunction) (values : Nat → Nat → Int32 × Int32) :
    List (Nat × Nat) :=
  Conjunction.evaluated values 0 c.conjunctions

end Syntax

/-! ## Running the code of a condition -/

/-- Where the code for the operands of a comparison begins and ends. -/
structure OperandBlock where
  start : Nat
  finish : Nat

/-- Runs code from one address to another. Every step runs the operands of comparison `j` of
conjunction `i`, which push the values `values i j`, and the conditional jump after them, which is
taken if its relation holds between them. The run ends where no operands begin. -/
inductive RunsCondition (code : List Instruction) (blocks : List (List OperandBlock))
    (values : Nat → Nat → Int32 × Int32) : Nat → List (Nat × Nat) → Nat → Prop where
  | leave {adr} (outside : ∀ row ∈ blocks, ∀ block ∈ row, block.start ≠ adr) :
      RunsCondition code blocks values adr [] adr
  | test {i j row block jump} {op : Comparison} {target evaluated adr}
      (inRow : blocks[i]? = some row) (inBlock : row[j]? = some block)
      (found : jump ∈ code) (behind : jump.addr = block.finish) (jumps : jump.op? = some op.jump)
      (leads : jump.target? = some target)
      (rest : RunsCondition code blocks values
        (if op.holds (values i j).1 (values i j).2 then target else jump.addr + jump.length)
        evaluated adr) :
      RunsCondition code blocks values block.start ((i, j) :: evaluated) adr

/-- Whether blocks begin one after the other within bounds. -/
structure OperandBlock.Ordered (low high : Nat) (blocks : List OperandBlock) : Prop where
  bounds : ∀ block ∈ blocks, low ≤ block.start ∧ block.start < high
  increasing : blocks.Pairwise (·.start < ·.start)

/-- Whether a block of code pushes the operands of a comparison and nothing in it jumps. -/
def IsOperandCode (rule : Syntax.Translation Syntax.Expr) (table : SymbolTable)
    (code : List Instruction) (c : Syntax.Compare) (block : OperandBlock) : Prop :=
  ∃ t items t', table.Widens t ∧ Syntax.Compare.Compiles rule t c items t' ∧ Items.Straight items ∧
    block.finish = block.start + Items.size items ∧ Items.At code block.start items

namespace OperandBlock.Ordered

variable {low middle high i j i' j' : Nat} {front back row row' : List OperandBlock}
  {rows : List (List OperandBlock)} {block block' : OperandBlock}

theorem single (nonempty : low < high) (finish : Nat) : Ordered low high [⟨low, finish⟩] where
  bounds block member := by
    rw [mem_singleton.mp member]
    exact ⟨Nat.le_refl low, nonempty⟩
  increasing := pairwise_singleton _ _

theorem append (first : Ordered low middle front) (second : Ordered middle high back)
    (below : low ≤ middle) (above : middle ≤ high) : Ordered low high (front ++ back) where
  bounds block member := by
    rcases mem_append.mp member with member | member
    · have := first.bounds block member
      omega
    · have := second.bounds block member
      omega
  increasing := by
    refine pairwise_append.mpr ⟨first.increasing, second.increasing, ?_⟩
    intro a left b right
    have := first.bounds a left
    have := second.bounds b right
    omega

/-- Blocks of an earlier row begin before those of a later one. -/
theorem start_lt (ordered : Ordered low high rows.flatten) (inRow : rows[i]? = some row)
    (inBlock : row[j]? = some block) (inRow' : rows[i']? = some row')
    (inBlock' : row'[j']? = some block') (earlier : i < i') : block.start < block'.start := by
  obtain ⟨_, across⟩ := pairwise_flatten.mp ordered.increasing
  obtain ⟨inside, rfl⟩ := List.getElem?_eq_some_iff.mp inRow
  obtain ⟨inside', rfl⟩ := List.getElem?_eq_some_iff.mp inRow'
  exact pairwise_iff_getElem.mp across i i' inside inside' earlier block
    (mem_of_getElem? inBlock) block' (mem_of_getElem? inBlock')

/-- At most one comparison begins at an address. -/
theorem unique (ordered : Ordered low high rows.flatten) (inRow : rows[i]? = some row)
    (inBlock : row[j]? = some block) (inRow' : rows[i']? = some row')
    (inBlock' : row'[j']? = some block') (same : block.start = block'.start) :
    i = i' ∧ j = j' ∧ block = block' := by
  rcases Nat.lt_trichotomy i i' with earlier | rfl | later
  · have := ordered.start_lt inRow inBlock inRow' inBlock' earlier
    omega
  · obtain rfl : row = row' := Option.some.inj (inRow.symm.trans inRow')
    obtain ⟨within, _⟩ := pairwise_flatten.mp ordered.increasing
    have increasing := pairwise_iff_getElem.mp (within row (mem_of_getElem? inRow))
    obtain ⟨inside, rfl⟩ := List.getElem?_eq_some_iff.mp inBlock
    obtain ⟨inside', rfl⟩ := List.getElem?_eq_some_iff.mp inBlock'
    have equal : j = j' := by
      rcases Nat.lt_trichotomy j j' with earlier | equal | later
      · have := increasing j j' inside inside' earlier
        omega
      · exact equal
      · have := increasing j' j inside' inside later
        omega
    subst equal
    exact ⟨rfl, rfl, rfl⟩
  · have := ordered.start_lt inRow' inBlock' inRow inBlock later
    omega

end OperandBlock.Ordered

variable {code : List Instruction} {blocks : List (List OperandBlock)}
  {values : Nat → Nat → Int32 × Int32} {base i j adr : Nat} {row : List OperandBlock}
  {evaluated : List (Nat × Nat)}

/-- There is only one way to run the code of a condition. -/
theorem RunsCondition.unique {low high adr' : Nat} {evaluated' : List (Nat × Nat)}
    (ordered : OperandBlock.Ordered low high blocks.flatten)
    (increasing : Increasing code)
    (run : RunsCondition code blocks values base evaluated adr)
    (other : RunsCondition code blocks values base evaluated' adr') :
    evaluated = evaluated' ∧ adr = adr' := by
  induction run generalizing evaluated' adr' with
  | leave outside =>
    cases other with
    | leave => exact ⟨rfl, rfl⟩
    | test inRow inBlock =>
      exact absurd rfl (outside _ (mem_of_getElem? inRow) _ (mem_of_getElem? inBlock))
  | @test i j row block jump op target evaluated adr inRow inBlock found behind jumps leads _ ih =>
    generalize start : block.start = first at other
    cases other with
    | leave outside =>
      exact absurd start (outside _ (mem_of_getElem? inRow) _ (mem_of_getElem? inBlock))
    | @test _ _ _ _ jump' op' _ _ _ inRow' inBlock' found' behind' jumps' leads' rest' =>
      obtain ⟨rfl, rfl, rfl⟩ := ordered.unique inRow inBlock inRow' inBlock' start
      obtain rfl : jump = jump' :=
        Instruction.addr_injOn increasing found found' (behind.trans behind'.symm)
      obtain rfl : op = op' := by
        have equal : op.jump = op'.jump := Option.some.inj (jumps.symm.trans jumps')
        revert equal
        cases op <;> cases op' <;> decide
      obtain rfl := Option.some.inj (leads.symm.trans leads')
      obtain ⟨rfl, rfl⟩ := ih rest'
      exact ⟨rfl, rfl⟩

/-- One step of a run, in terms of items. -/
theorem RunsCondition.compare {items : List Item} {op : Comparison} {target : Nat}
    (located : At code base (items ++ [.jump (some op) (.address target)]))
    (near : farCount base (items ++ [.jump (some op) (.address target)]) = 0)
    (inRow : blocks[i]? = some row) (inBlock : row[j]? = some ⟨base, base + size items⟩)
    (rest : RunsCondition code blocks values
      (if op.holds (values i j).1 (values i j).2 then target else base + size items + 3)
      evaluated adr) : RunsCondition code blocks values base ((i, j) :: evaluated) adr := by
  have jumps : ((Item.jump (some op) (.address target)).instruction
      (base + size items)).op? = some op.jump := by
    simp [Item.opcode, Item.jumpOp]
  refine .test inRow inBlock located.right.mem rfl jumps
    (Item.instruction_target? _ _ rfl (isFar_of_farCount near)) ?_
  simpa using rest

namespace Syntax

variable {nested : Translation Expr} {table t t' : SymbolTable} {items : List Item}
  {holds fails : Nat} {final : Comparison → Item}

/-- Running the comparisons of a conjunction. -/
theorem Compare.Chain.runs [Fact (Outlining nested)] {cs : List Compare}
    (chain : Compare.Chain nested fails final t cs items t') (widens : table.Widens t)
    (decides : Decides final (base + size items) holds fails) (located : At code base items)
    (near : farCount base items = 0) :
    ∃ tail : List OperandBlock, Forall₂ (IsOperandCode nested table code) cs tail ∧
      OperandBlock.Ordered base (base + size items) tail ∧
      ∀ blocks i j front values evaluated adr, blocks[i]? = some (front ++ tail) →
        front.length = j →
        RunsCondition code blocks values
          (if Compare.allHold (values i) j cs then holds else fails) evaluated adr →
        RunsCondition code blocks values base
          ((Compare.evaluated (values i) j cs).map (fun j => (i, j)) ++ evaluated) adr := by
  induction chain generalizing base with
  | @last t c items t' compare =>
    have code_ : IsOperandCode nested table code c ⟨base, base + size items⟩ :=
      ⟨t, items, t', widens, compare, compare.outlines.straight, rfl, located.left⟩
    refine ⟨[⟨base, base + size items⟩], .cons code_ .nil, ?_, ?_⟩
    · apply OperandBlock.Ordered.single
      rcases decides with ⟨rfl, _⟩ | ⟨rfl, _⟩ <;> simp
    · intro blocks i j front values evaluated adr inRow rfl run
      have inBlock : (front ++ [⟨base, base + size items⟩] : List OperandBlock)[front.length]? =
          some ⟨base, base + size items⟩ := by simp
      simp only [Compare.allHold, Bool.and_true] at run
      simp only [Compare.evaluated, ite_self, map_cons, map_nil, cons_append, nil_append]
      rcases decides with ⟨rfl, rfl⟩ | ⟨rfl, rfl⟩
      · refine .compare located near inRow inBlock ?_
        simpa [Nat.add_assoc] using run
      · refine .compare located near inRow inBlock ?_
        rw [Comparison.holds_negate]
        cases holds : c.relation.holds (values i front.length).1 (values i front.length).2 <;>
          simpa [holds, Nat.add_assoc] using run
  | @and t c items t1 rest items' t' compare more ih =>
    -- The comparison with its own jump, then the others.
    rw [append_cons] at located near
    have outlines := compare.outlines
    have jump : size (items ++ [.jump (some c.relation.negate) (.address fails)]) =
        size items + 3 := by simp
    rw [farCount_append_eq_zero] at near
    have next : base + size (items ++ [.jump (some c.relation.negate) (.address fails)]) +
        size items' = base + size
          (items ++ .jump (some c.relation.negate) (.address fails) :: items') := by
      simp [Nat.add_assoc]
    obtain ⟨tail, blocksOf, ordered, runs⟩ := ih (widens.trans outlines.widens)
      (by rw [next]; exact decides) located.right near.2
    have code_ : IsOperandCode nested table code c ⟨base, base + size items⟩ :=
      ⟨t, items, t1, widens, compare, outlines.straight, rfl, located.left.left⟩
    refine ⟨⟨base, base + size items⟩ :: tail, .cons code_ blocksOf, ?_, ?_⟩
    · rw [next] at ordered
      have first : OperandBlock.Ordered base (base + size
          (items ++ [.jump (some c.relation.negate) (.address fails)]))
          [⟨base, base + size items⟩] := .single (by omega) _
      exact first.append ordered (by omega) (by omega)
    · intro blocks i j front values evaluated adr inRow rfl run
      rw [append_cons] at inRow
      refine .compare located.left near.1 inRow (by simp) ?_
      rw [Comparison.holds_negate]
      cases holds : c.relation.holds (values i front.length).1 (values i front.length).2 with
      | true =>
        have later := runs blocks i (front.length + 1) _ values evaluated adr inRow (by simp)
          (by simpa [Compare.allHold, holds] using run)
        simpa [holds, jump, Nat.add_assoc] using later
      | false => simpa [Compare.allHold, holds] using run

/-- Running the conjunctions of a condition, the last of which is followed by a jump to where the
condition fails. -/
theorem Conjunction.Chain.runs [Fact (Outlining nested)] {cs : List Conjunction}
    (chain : Conjunction.Chain nested holds fails
      (fun op => .jump (some op.negate) (.address fails)) t base cs items t')
    (widens : table.Widens t) (behind : holds = base + size items) (located : At code base items)
    (near : farCount base items = 0) :
    ∃ tail : List (List OperandBlock),
      Forall₂ (fun c row => Forall₂ (IsOperandCode nested table code) c.compares row)
        cs tail ∧
      OperandBlock.Ordered base (base + size items) tail.flatten ∧
      ∀ blocks i front values evaluated adr, blocks = front ++ tail → front.length = i →
        RunsCondition code blocks values
          (if Conjunction.anyHolds values i cs then holds else fails) evaluated adr →
        RunsCondition code blocks values base (Conjunction.evaluated values i cs ++ evaluated)
          adr := by
  induction chain with
  | last compares =>
    obtain ⟨row, blocksOf, ordered, runs⟩ :=
      compares.runs widens (.inr ⟨rfl, behind⟩) located near
    refine ⟨[row], .cons blocksOf .nil, by simpa using ordered, ?_⟩
    rintro blocks i front values evaluated adr rfl rfl run
    have inRow : (front ++ [row])[front.length]? = some ([] ++ row) := by simp
    have result := runs _ _ 0 [] values evaluated adr inRow rfl
      (by simpa [Conjunction.anyHolds] using run)
    simpa [Conjunction.evaluated] using result
  | @or t base c items t1 rest items' t' compares _ ih =>
    rw [farCount_append_eq_zero] at near
    obtain ⟨row, blocksOf, ordered, runs⟩ :=
      compares.runs widens (.inl ⟨rfl, rfl⟩) located.left near.1
    obtain ⟨tail, blocksOf', ordered', runs'⟩ := ih (widens.trans (compares.widens))
      (by simpa [Nat.add_assoc] using behind) located.right near.2
    refine ⟨row :: tail, .cons blocksOf blocksOf', ?_, ?_⟩
    · rw [size_append, ← Nat.add_assoc, flatten_cons]
      exact ordered.append ordered' (by omega) (by omega)
    · rintro blocks i front values evaluated adr rfl rfl run
      have inRow : (front ++ row :: tail)[front.length]? = some ([] ++ row) := by simp
      simp only [Conjunction.evaluated, append_assoc]
      refine runs _ _ 0 [] values _ adr inRow rfl ?_
      -- Only if this conjunction fails the others matter.
      cases all : Compare.allHold (values front.length) 0 c.compares with
      | true => simpa [Conjunction.anyHolds, all] using run
      | false =>
        have later := runs' _ (front.length + 1) (front ++ [row]) values evaluated adr
          (append_cons ..) (by simp) (by simpa [Conjunction.anyHolds, all] using run)
        simpa using later

/-- The only run of a condition, if the code where it fails lies behind it. -/
theorem Disjunction.runs_iff [Fact (Outlining nested)] {c : Disjunction}
    (chain : Conjunction.Chain nested (base + size items) fails
      (fun op => .jump (some op.negate) (.address fails)) t base c.conjunctions items t')
    (outside : base + size items ≤ fails) (located : At code base items)
    (near : farCount base items = 0) (increasing : Increasing code) :
    ∃ blocks : List (List OperandBlock),
      Forall₂ (fun conjunction row => Forall₂ (IsOperandCode nested t code)
        conjunction.compares row) c.conjunctions blocks ∧
      ∀ values evaluated adr, RunsCondition code blocks values base evaluated adr ↔
        evaluated = c.evaluated values ∧
        adr = if c.holds values then base + size items else fails := by
  obtain ⟨blocks, blocksOf, ordered, runs⟩ := chain.runs .refl rfl located near
  refine ⟨blocks, blocksOf, fun values evaluated adr => ?_⟩
  have left : RunsCondition code blocks values
      (if c.holds values then base + size items else fails) []
      (if c.holds values then base + size items else fails) := by
    refine .leave fun row inRow block inBlock same => ?_
    have bounds := ordered.bounds block (mem_flatten.mpr ⟨row, inRow, inBlock⟩)
    split at same <;> omega
  have run := runs blocks 0 [] values [] _ rfl rfl left
  rw [append_nil] at run
  constructor
  · intro other
    exact RunsCondition.unique ordered increasing other run
  · rintro ⟨rfl, rfl⟩
    exact run

end Syntax

/-! ## The code that a condition is compiled to -/

namespace CodeBuffer.Complete

variable {c : CodeBuffer}

theorem pairwise_addr (complete : c.Complete) : Increasing c.instructions := by
  obtain ⟨items, bytes⟩ := complete
  rw [instructions_eq bytes]
  exact pairwise_instructions 0 items

/-- Items that were assembled behind complete code are found there. -/
theorem items_at (complete : c.Complete) (items : List Item) :
    At (c.assemble items).instructions c.pc items := by
  obtain ⟨front, bytes⟩ := complete
  have pc : c.pc = size front := by
    rw [← length_bytes 0, ← bytes]
    simp [CodeBuffer.pc]
  have assembled : (c.assemble items).bytes.toList = Items.bytes 0 (front ++ items) := by
    rw [toList_assemble, bytes, bytes_append, pc, Nat.zero_add]
  refine ⟨Items.instructions 0 front, [], ?_⟩
  rw [instructions_eq assembled, instructions_append, pc, Nat.zero_add, append_nil]

end CodeBuffer.Complete

open Syntax

/-! ## Conditions whose operands have no problems -/

/-- The same tokens, as if the lexer had found nothing wrong with them. -/
def TokenStream.silent (s : TokenStream) : TokenStream :=
  { s with rest := s.rest.map fun next => { next with diagnostics := [] } }

/-- The same state, as if no problem was met before. -/
def Compiler.afresh (s : Compiler) : Compiler :=
  { s with tokens := s.tokens.silent, reporter := .standard }

/-- Compiles an operand of a comparison and takes its value for a number, which can be compared with
every other number. -/
def Compile.operand (expr : Compile Operand) : Compile Operand := do
  let _ ← loadValue (← expr)
  return .onStack .int

/-- Whether a condition and its closing parenthesis are ahead, none of whose operands has a problem.
Problems met before do not matter, nor whether the operands can be compared with each other. -/
def Compiler.FacesCondition (levels : Nat) (s : Compiler) : Prop :=
  ∃ onFalse s', guarded (operand (expression levels)) s.afresh =
    .ok (onFalse, s') ∧ s'.Clean

/-- What an expression compiles to if its value is pushed and taken for a number. -/
def Syntax.Translation.pushed (rule : Translation Expr) : Translation Expr :=
  fun t e items x t' => ∃ front y, rule t e front y t' ∧ y.isValueless = false ∧
    items = front ++ y.loadItems ∧ x = .onStack .int

instance (rule : Translation Expr) [inner : Fact (Outlining rule)] :
    Fact (Outlining rule.pushed) where
  out := by
    rintro t e _ _ t' ⟨front, y, compiles, _, rfl, rfl⟩
    obtain ⟨outlines, notMethod⟩ := inner.out compiles
    exact ⟨outlines.append (.plain (Operand.plain_loadItems notMethod)), by decide⟩

namespace Compile

variable {expr : Compile Operand} {rule : Translation Expr} {a b : TypeId} {s s' : Compiler}
  {op op' : Option Comparison}

theorem operand_realizes (inner : Realizes expr Expr.lexemes rule) :
    Realizes (operand expr) Expr.lexemes rule.pushed := by
  intro s valid
  apply Ensures.bind (inner s valid)
  rintro x s1 ⟨_, phrase⟩
  apply Ensures.bind (loadValue_does phrase.valid x)
  rintro _ s2 ⟨_, loaded⟩
  apply Ensures.pure
  constructor
  · exact knows_onStack (loaded.valid.table.contains_basic (by decide))
  · apply (phrase.before valid loaded (by simp)).as id (by simp)
    rintro e _ ⟨front, rfl, valued, compiles⟩
    exact ⟨front, x, compiles, valued, rfl, rfl⟩

/-- What a comparison checks once its operands are pushed. -/
def checkOperands (a b : TypeId) (op : Option Comparison) : Compile (Option Comparison) := do
  reportIf (!(← comparable a b)) (.semantic .incompatibleTypes)
  let reference ← askType a TypeTable.isReference
  reportIf (reference && op.any Comparison.isOrder) (.semantic .orderedReferences)
  return op

/-- The checks change nothing but what is reported. -/
theorem checkOperands_ensures (left : s.table.types.contains a = true)
    (right : s.table.types.contains b = true) :
    Ensures (checkOperands a b op) s fun op' s' =>
      op' = op ∧ ∃ reporter, s' = { s with reporter } := by
  apply Ensures.comparable left right
  obtain ⟨r, reported⟩ :=
    reportIf_run (!s.table.types.comparable a b) (.semantic .incompatibleTypes) s
  refine .ofRun reported (.askType left ?_)
  obtain ⟨r', reported'⟩ := reportIf_run (s.table.types.isReference a && op.any Comparison.isOrder)
    (.semantic .orderedReferences) { s with reporter := r }
  exact .ofRun reported' (.pure ⟨rfl, r', rfl⟩)

private theorem contains_of_requireType (run : requireType a s = .ok ((), s')) :
    s' = s ∧ s.table.types.contains a = true := by
  change (if s.table.types.contains a = true then (pure () : Compile Unit)
    else throw (.unknownType a.index)) s = _ at run
  split at run
  · next inside =>
    cases run
    exact ⟨rfl, inside⟩
  · cases run

private theorem run_checkOperands (run : checkOperands a b op s = .ok (op', s')) :
    op' = op ∧ ∃ reporter, s' = { s with reporter } := by
  obtain ⟨_, s1, compared, _⟩ := run_bind run
  obtain ⟨_, s2, required, rest⟩ := run_bind compared
  obtain ⟨rfl, left⟩ := contains_of_requireType required
  obtain ⟨_, s3, required', _⟩ := run_bind rest
  obtain ⟨_, right⟩ := contains_of_requireType required'
  exact (checkOperands_ensures left right).of_run run

end Compile

/-- Two compilations of one text, of which the second one met no problem before. -/
def Coupling.renewing (limits : Limits) : Coupling where
  __ := Coupling.same limits limits
  Found := fun _ _ => True
  found_nil := trivial
  advance := fun _ _ _ => trivial

namespace Coupling

open Compile

variable {limits : Limits} {expr : Compile Operand} {s s' : Compiler}

/-- A comparison has the same code whether or not the types of its operands matter. -/
instance [(renewing limits).Shared expr] :
    (renewing limits).Shares (comparison expr) (comparison (operand expr)) := by
  have left : comparison expr = (do
      let x ← loadValue (← expr)
      let op ← relation
      let y ← loadValue (← expr)
      checkOperands x.type y.type op) := rfl
  have right : comparison (operand expr) = (do
      let _ ← loadValue (← expr)
      let op ← relation
      let _ ← loadValue (← expr)
      checkOperands .int .int op) := by
    simp only [comparison, operand, bind_assoc, pure_bind]
    rfl
  rw [left, right]
  refine .step fun x => .step fun x' => .step fun op => .step fun y => .step fun y' => ⟨?_⟩
  intro s s' states a t run
  obtain ⟨rfl, reporter, rfl⟩ := run_checkOperands run
  have int : s'.table.types.contains .int = true := by
    rw [states.table.types]
    exact decide_eq_true (Nat.lt_of_lt_of_le (by decide) states.table.predeclaredTypes)
  obtain ⟨_, _, run', rfl, reporter', rfl⟩ := checkOperands_ensures int int
  exact ⟨_, _, run', rfl, states.withReporter trivial⟩

private theorem afresh_states (valid : s.Valid) : (renewing s.limits).States s s.afresh where
  prev := (Lexeme.rename_id _).symm
  peek := rfl
  rest := by
    rw [Compiler.afresh, TokenStream.silent, forall₂_map_right_iff]
    exact forall₂_same.mpr fun _ _ => ⟨rfl, trivial⟩
  reporter := trivial
  table := valid.table.renamed fun _ => rfl
  code := rfl
  limits := rfl
  limits' := rfl
  method := rfl
  loopExits := rfl
  depth := rfl

theorem States.upcoming (states : (renewing limits).States s s') :
    s'.tokens.upcoming = s.tokens.upcoming := by
  have peek : s.tokens.peek = s'.tokens.peek := states.peek
  have rest : s.tokens.rest.map (·.token.lexeme) = s'.tokens.rest.map (·.token.lexeme) := by
    rw [← forall₂_eq_eq_eq, forall₂_map_left_iff, forall₂_map_right_iff]
    exact states.rest.imp fun _ _ scanned => congrArg _ scanned.1
  rw [TokenStream.upcoming, TokenStream.upcoming, peek, rest]

end Coupling

theorem Compiler.Valid.afresh {s : Compiler} (valid : s.Valid) : s.afresh.Valid where
  __ := valid
  tokens := by
    obtain ⟨front, all, rare⟩ := valid.tokens
    refine ⟨front, ?_, rare⟩
    rw [← all]
    exact (Coupling.afresh_states valid).upcoming
  reporter := fun _ => Nat.le_refl Reporter.standard.spacing

/-- A condition whose operands have no problems has the items that it has afresh. -/
theorem Compiler.FacesCondition.items {levels : Nat} {s s' : Compiler} {onFalse : Label}
    (facing : s.FacesCondition levels) (valid : s.Valid)
    (done : guarded (expression levels) s = .ok (onFalse, s')) :
    ∃ c front op t', s.tokens.upcoming = c.lexemes ++ .mark .rightParen :: s'.tokens.upcoming ∧
      s'.code = s.code.assemble (guardItems s.code.pc front op) ∧
      onFalse = .pending (slots .fails s.code.pc (guardItems s.code.pc front op)) ∧
      Disjunction.Compiles (Translation.pushed (Expr.Compiles levels)) s.table s.code.pc c front op
        t' := by
  obtain ⟨_, s1, again, clean⟩ := facing
  have fresh := Coupling.afresh_states valid
  have shared : (Coupling.renewing s.limits).Shares (guarded (expression levels))
      (guarded (operand (expression levels))) := inferInstance
  obtain ⟨_, _, run, rfl, states⟩ := shared.couples _ _ fresh _ _ done
  cases again.symm.trans run
  obtain ⟨_, extended, _, waits, accepted⟩ := (guarded_ensures
    (operand_realizes (expression_realizes levels)) valid.afresh).of_run again
  obtain ⟨_, c, front, op, reads, rfl, compiles⟩ := accepted clean
  rw [fresh.upcoming, states.upcoming] at reads
  exact ⟨c, front, op, s1.table, reads, states.code.symm.trans extended.code, waits, compiles⟩

/-! ## The code of conditions -/

namespace Compile

/-- Whether code evaluates the condition ahead of the state `s`, behind which the state is `s'`: the
only way to run the code leads behind the condition if it holds and to `onFalse` otherwise, and
evaluates the comparisons that decide the outcome. -/
def ShortCircuits (levels : Nat) (s s' : Compiler) (code : CodeBuffer) (onFalse : Nat) : Prop :=
  ∃ (c : Disjunction) (blocks : List (List OperandBlock)),
    s.tokens.upcoming = c.lexemes ++ .mark .rightParen :: s'.tokens.upcoming ∧
    Forall₂ (fun conjunction row => Forall₂
      (IsOperandCode (Translation.pushed (Expr.Compiles levels)) s.table code.instructions)
      conjunction.compares row) c.conjunctions blocks ∧
    ∀ values evaluated adr,
      RunsCondition code.instructions blocks values s.code.pc evaluated adr ↔
        evaluated = c.evaluated values ∧ adr = if c.holds values then s'.code.pc else onFalse

/-- Compiling a condition always succeeds, and so does letting its label stand for the end of any
code behind it. If its operands have no problems and all its jumps fit, then the code evaluates it
from left to right and no further than needed. -/
theorem guarded_shortCircuits (levels : Nat) {s : Compiler} (valid : s.Valid) :
    ∃ onFalse s', guarded (expression levels) s = .ok (onFalse, s') ∧
      ∀ rest, ∃ code,
        onFalse.here (s'.code.assemble rest) = .ok (.resolved (s'.code.pc + size rest), code) ∧
        (s.FacesCondition levels →
          code.farOffsets = s.code.farOffsets + farCount s'.code.pc rest →
          ShortCircuits levels s s' code (s'.code.pc + size rest)) := by
  obtain ⟨onFalse, s', done, items, extended, _, waits, _⟩ :=
    guarded_ensures (expression_realizes levels) valid
  refine ⟨onFalse, s', done, fun rest => ?_⟩
  have resolved := Label.here_slots_assemble .fails s.code items rest
  rw [← waits, ← extended.code, ← extended.pc] at resolved
  refine ⟨_, resolved, fun facing near => ?_⟩
  obtain ⟨c, front, op, t', reads, code, waits', compiles⟩ := facing.items valid done
  have same := Label.here_slots_assemble .fails s.code (guardItems s.code.pc front op) rest
  have pc : s'.code.pc = s.code.pc + size (guardItems s.code.pc front op) := by
    rw [code, CodeBuffer.pc_assemble]
  rw [← waits', ← code, ← pc, resolved] at same
  rw [(Prod.mk.inj (Except.ok.inj same)).2] at near ⊢
  have length : s'.code.pc = s.code.pc + size (Items.resolve .fails (s'.code.pc + size rest)
      (guardItems s.code.pc front op)) := by
    rw [pc, size_resolve]
  have chain := guardItems_chain compiles (s'.code.pc + size rest)
  rw [← size_resolve .fails (s'.code.pc + size rest)] at chain
  rw [CodeBuffer.farOffsets_assemble, farCount_append, ← length] at near
  obtain ⟨blocks, blocksOf, runs⟩ := Disjunction.runs_iff chain (by omega)
    (valid.code.items_at _).left (by omega) (valid.code.assemble _).pairwise_addr
  rw [← length] at runs
  exact ⟨c, blocks, reads, blocksOf, runs⟩

/-- A condition up to its closing parenthesis. -/
def conditionSource : List Char := "1 < 2 && 3 == 4 || 5 > 6)".toList

theorem guarded_shortCircuits_mixed :
    ∃ (s s' : Compiler) (onFalse : Label) (code : CodeBuffer),
      scan (Compiler.start .standard .supported conditionSource) = .ok ((), s) ∧
      guarded (expression 1) s = .ok (onFalse, s') ∧ s.FacesCondition 1 ∧
      onFalse.here (s'.code.assemble [.jump none (.address 0)]) =
        .ok (.resolved (s'.code.pc + 3), code) ∧
      code.farOffsets = s.code.farOffsets + farCount s'.code.pc [.jump none (.address 0)] ∧
      ShortCircuits 1 s s' code (s'.code.pc + 3) := by
  have ready := Compiler.start_valid .supported conditionSource fun _ =>
    Nat.le_refl Reporter.standard.spacing
  obtain ⟨_, s, scanned, extended, _⟩ := scan_ensures ready
  obtain ⟨onFalse, s', done, resolves⟩ := guarded_shortCircuits 1 extended.valid
  obtain ⟨code, resolved, runs⟩ := resolves [.jump none (.address 0)]
  obtain ⟨_, s1, again, _⟩ :=
    guarded_ensures (operand_realizes (expression_realizes 1)) extended.valid.afresh
  have computed : (do
      let first ← scan (Compiler.start .standard .supported conditionSource)
      let guard ← guarded (expression 1) first.2
      let again ← guarded (operand (expression 1)) first.2.afresh
      let last ← guard.1.here (guard.2.code.assemble [.jump none (.address 0)])
      return (again.2.reporter.recorded, last.2.farOffsets, first.2.code.farOffsets +
        farCount guard.2.code.pc [.jump none (.address 0)])) = .ok (#[], 0, 0) := by
    decide +kernel
  simp only [scanned, done, again, resolved, bind, Except.bind, Pure.pure, Except.pure,
    Except.ok.injEq, Prod.mk.injEq] at computed
  obtain ⟨clean, none, none'⟩ := computed
  have facing : s.FacesCondition 1 := ⟨_, s1, again, clean⟩
  have near := none.trans none'.symm
  exact ⟨s, s', onFalse, code, scanned, done, facing, resolved, near, runs facing near⟩

/-! ## Jumps that do not fit -/

/-- Where no conditional jump leads anywhere, no comparison is left behind. -/
theorem adr_eq_of_stuck {adr' : Nat}
    (stuck : ∀ jump ∈ code, ∀ op : Comparison, jump.op? = some op.jump → jump.target? = none)
    (run : RunsCondition code blocks values adr evaluated adr') : adr' = adr := by
  cases run with
  | leave => rfl
  | test _ _ found _ jumps leads _ =>
    rw [stuck _ found _ jumps] at leads
    cases leads

/-- The items of the condition `1 == 2`. -/
def equalItems (fails : Destination) : List Item :=
  [.const 1, .const 2, .jump (some .ne) fails]

private theorem size_zeros (n : Nat) : size (replicate n (.const 0)) = n := by
  induction n with
  | zero => rfl
  | succ n ih =>
    rw [replicate_succ, size_cons, ih]
    exact Nat.add_comm 1 n

private theorem equalItems_stuck {fails n : Nat} {jump : Instruction} {op : Comparison}
    (far : ((Item.jump (some .ne) (.address fails)).instruction 2).target? = none)
    (found : jump ∈ (CodeBuffer.assemble {}
      (equalItems (.address fails) ++ replicate n (.const 0))).instructions)
    (jumps : jump.op? = some op.jump) : jump.target? = none := by
  rw [CodeBuffer.instructions_eq (CodeBuffer.toList_assemble {} _), instructions_append,
    mem_append] at found
  rcases found with found | found
  · simp only [equalItems, instructions, mem_cons, not_mem_nil, or_false] at found
    rcases found with rfl | rfl | rfl
    · cases op <;> cases jumps
    · cases op <;> cases jumps
    · exact far
  · obtain ⟨front, i, back, split, rfl⟩ := mem_instructions found
    obtain rfl : i = .const 0 := eq_of_mem_replicate (n := n) (by simp [split])
    cases op <;> cases jumps

/-- Before more code than a jump can lead over, a condition without problems is not evaluated
so. -/
theorem guarded_tooFar :
    ∃ (s s' : Compiler) (onFalse : Label) (rest : List Item) (code : CodeBuffer),
      scan (Compiler.start .standard .supported "1 == 2)".toList) = .ok ((), s) ∧
      guarded (expression 1) s = .ok (onFalse, s') ∧ s.FacesCondition 1 ∧
      onFalse.here (s'.code.assemble rest) = .ok (.resolved (s'.code.pc + size rest), code) ∧
      ¬ ShortCircuits 1 s s' code (s'.code.pc + size rest) := by
  have ready := Compiler.start_valid .supported "1 == 2)".toList fun _ =>
    Nat.le_refl Reporter.standard.spacing
  obtain ⟨_, s, scanned, extended, _⟩ := scan_ensures ready
  obtain ⟨onFalse, s', done, _⟩ := guarded_ensures (expression_realizes 1) extended.valid
  obtain ⟨_, s1, again, _⟩ :=
    guarded_ensures (operand_realizes (expression_realizes 1)) extended.valid.afresh
  have computed : (do
      let first ← scan (Compiler.start .standard .supported "1 == 2)".toList)
      let guard ← guarded (expression 1) first.2
      let again ← guarded (operand (expression 1)) first.2.afresh
      return (first.2.code, guard.1, guard.2.code, again.2.reporter.recorded)) =
        .ok ({}, .pending (slots .fails 0 (equalItems (.waiting .fails))),
          CodeBuffer.assemble {} (equalItems (.waiting .fails)), #[]) := by
    decide +kernel
  simp only [scanned, done, again, bind, Except.bind, Pure.pure, Except.pure, Except.ok.injEq,
    Prod.mk.injEq] at computed
  obtain ⟨empty, rfl, code, clean⟩ := computed
  have base : s.code.pc = 0 := by
    rw [empty]
    rfl
  have pc : s'.code.pc = 5 := by
    rw [code]
    rfl
  -- The length is a variable, so that nothing counts up to it.
  obtain ⟨n, long⟩ : ∃ n, n = 32768 := ⟨_, rfl⟩
  have resolved := Label.here_slots_assemble .fails {} (equalItems (.waiting .fails))
    (replicate n (.const 0))
  have label : CodeBuffer.pc {} + size (equalItems (.waiting .fails)) +
      size (replicate n (.const 0)) = s'.code.pc + size (replicate n (.const 0)) := by
    rw [pc]
    rfl
  rw [← code, label] at resolved
  refine ⟨s, s', _, _, _, scanned, done, ⟨_, s1, again, clean⟩, resolved, ?_⟩
  rintro ⟨c, blocks, -, -, runs⟩
  have run := (runs (fun _ _ => (1, 2)) _ _).mpr ⟨rfl, rfl⟩
  rw [pc, size_zeros] at run
  have stays := adr_eq_of_stuck (fun _ found _ => equalItems_stuck (by rw [long]; decide) found) run
  split at stays <;> omega

end Compile

end MicroJava

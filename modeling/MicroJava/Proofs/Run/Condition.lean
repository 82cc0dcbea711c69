import MicroJava.Proofs.Run.Expression

/-! # Compiling conditions

What the actions for comparisons, conjunctions and conditions do to a state. Both labels of a
condition wait in just the slots of the items that were added, whether problems were met or not, so
resolving a label resolves it in these items.
-/

namespace MicroJava

open Syntax Compiler Items

namespace Compile

variable {s s1 : Compiler} {items : List Item} {expr : Compile Operand} {rule : Translation Expr}

/-! ## Labels -/

/-- Letting a label stand for the end of the code, if it waits in items added since a state. -/
theorem here_adds (valid : s.Valid) (adds : s.Adds s1 items) (label : OpenLabel) :
    Ensures (here (.pending (slots label s.code.pc items))) s1 fun _ s2 =>
      s.Adds s2 (Items.resolve label s1.code.pc items) ∧ s2.loopExits = s1.loopExits ∧
      s2.table = s1.table ∧ s2.tokens = s1.tokens ∧ s2.reporter = s1.reporter := by
  have run : here (.pending (slots label s.code.pc items)) s1 =
      .ok (.resolved s1.code.pc,
        { s1 with code := s.code.assemble (Items.resolve label s1.code.pc items) }) := by
    simp only [here, withCode, adds.code, Label.here_slots, CodeBuffer.pc_assemble]
  exact ⟨_, _, run, { adds with
    code := rfl, valid := { adds.valid with code := valid.code.assemble _ } }, rfl, rfl, rfl, rfl⟩

/-- The label of a loop around the items does not change when another one is resolved in them. -/
theorem here_extends (valid : s.Valid) (extension : s.Extends s1 items) {label : OpenLabel}
    (other : label ≠ .exit) :
    Ensures (here (.pending (slots label s.code.pc items))) s1 fun _ s2 =>
      s.Extends s2 (Items.resolve label s1.code.pc items) ∧
      s2.table = s1.table ∧ s2.tokens = s1.tokens ∧ s2.reporter = s1.reporter := by
  refine (here_adds valid extension.toAdds label).mono fun _ s2 ⟨adds, exits, rest⟩ => ⟨⟨adds, ?_⟩, rest⟩
  rw [exits, extension.exits, slots_resolve_ne other]

theorem jump_pending (s : Compiler) (label : OpenLabel) (slots : List Nat) :
    jump (.pending slots) s = .ok (.pending ((s.code.pc + 1) :: slots),
      { s with code := s.code.add (.jump none (.waiting label)) }) := by
  simp [jump, withCode, Label.jump, Label.put, CodeBuffer.add, Item.jumpOp]

theorem jump_does (valid : s.Valid) (when? : Option Comparison) (label : OpenLabel)
    (other : label ≠ .exit) : s.Does { s with code := s.code.add (.jump when? (.waiting label)) }
      [.jump when? (.waiting label)] [] True := by
  have closed : Without .exit [.jump when? (.waiting label)] :=
    await_jump (List.mem_singleton_self label) when? .exit (by simpa using other.symm)
  exact (code_does valid _ closed []).imp fun _ => trivial

/-- The items of a jump on the last comparison of a condition. There are none if there is no
comparison, which happens only after a problem. -/
def jumpItems (comparison : Option Comparison) (label : OpenLabel) : List Item :=
  comparison.elim [] fun op => [.jump (some op) (.waiting label)]

theorem jumpIfFalse_does (valid : s.Valid) {x : Condition} {slots : List Nat}
    (waiting : x.onFalse = .pending slots) :
    Ensures (jumpIfFalse x) s fun y s' =>
      y = { x with onFalse := .pending (Items.slots .fails s.code.pc
        (jumpItems (x.comparison.map Comparison.negate) .fails) ++ slots) } ∧
      s.Does s' (jumpItems (x.comparison.map Comparison.negate) .fails) [] True := by
  obtain ⟨comparison, onTrue, onFalse⟩ := x
  subst waiting
  cases comparison with
  | none => exact ⟨_, _, rfl, rfl, .refl valid trivial⟩
  | some op =>
    refine ⟨_, _, rfl, ?_, jump_does valid (some op.negate) .fails (by decide)⟩
    simp [jumpItems, Items.slots, Item.waitsFor]

theorem jumpIfTrue_does (valid : s.Valid) {x : Condition} {slots : List Nat}
    (waiting : x.onTrue = .pending slots) :
    Ensures (jumpIfTrue x) s fun y s' =>
      y = { x with onTrue := .pending (Items.slots .holds s.code.pc
        (jumpItems x.comparison .holds) ++ slots) } ∧
      s.Does s' (jumpItems x.comparison .holds) [] True := by
  obtain ⟨comparison, onTrue, onFalse⟩ := x
  subst waiting
  cases comparison with
  | none => exact ⟨_, _, rfl, rfl, .refl valid trivial⟩
  | some op =>
    refine ⟨_, _, rfl, ?_, jump_does valid (some op) .holds (by decide)⟩
    simp [jumpItems, Items.slots, Item.waitsFor]

/-! ## Comparisons -/

private theorem relation_mark {kind : TokenKind} {op : Comparison}
    (found : relation? kind = some op) :
    kind = .mark (relationMark op) := by
  fun_cases relation? kind with
  | case7 => simp [relation?] at found
  | _ => cases found; rfl

theorem relation_does (valid : s.Valid) :
    Ensures relation s fun op s' => ∃ found,
      s.Does s' [] [.mark (relationMark found)] (op = some found) := by
  refine .lookahead ?_
  split
  · next op found =>
    refine .bind (scan_mark valid fun _ => relation_mark found) fun _ s1 scanned => ?_
    exact .pure ⟨op, scanned.imp fun _ => rfl⟩
  · refine .bind (report_does valid _) ?_
    rintro _ s1 ⟨reported, problem⟩
    exact .pure ⟨.eq, reported.ofProblem problem _ _⟩

theorem comparison_translates (inner : Realizes expr Expr.lexemes rule) (valid : s.Valid) :
    Ensures (comparison expr) s fun op s' => s.Translates s' Compare.lexemes fun t c items t' =>
      op = some c.relation ∧ c.Compiles rule t items t' := by
  refine .bind (inner s valid) ?_
  rintro x s1 ⟨knownX, left⟩
  refine .loadsValue left.valid fun s2 loaded => ?_
  refine .bind (relation_does loaded.valid) ?_
  rintro op s3 ⟨found, relation⟩
  have middle := loaded.trans relation
  refine .bind (inner s3 middle.valid) ?_
  rintro y s4 ⟨knownY, right⟩
  refine .loadsValue right.valid fun s5 loaded' => ?_
  have knownX := loaded'.knows (right.knows (middle.knows knownX))
  refine .comparable knownX.type (loaded'.knows knownY).type ?_
  refine .check loaded'.valid fun s6 comparable => ?_
  refine .askType (by rw [comparable.table]; exact knownX.type) ?_
  rw [comparable.table]
  refine .check comparable.valid fun s7 ordered => ?_
  have back := (loaded'.trans comparable).trans ordered
  refine .pure (((left.before valid middle (by simp)).and
    (right.before middle.valid back (by simp))).as (fun e => ⟨e.1, found, e.2⟩)
      (by simp [Compare.lexemes]) ?_)
  rintro ⟨left, right⟩ _ ⟨_, _, rfl, ⟨_, rfl, ⟨valued, rfl⟩, compiles1⟩,
    _, rfl, ⟨⟨valued', comparable'⟩, ordered'⟩, compiles2⟩
  rw [← (comparable.trans ordered).table] at comparable' ordered'
  refine ⟨rfl, ?_⟩
  simpa using Compare.Compiles.mk compiles1 valued compiles2 valued' (by simpa using comparable')
    (by simpa using ordered')

/-! ## Conjunctions and conditions -/

private theorem await_jumpItems (comparison : Option Comparison) {label : OpenLabel}
    {labels : List OpenLabel} (member : label ∈ labels) :
    Await labels (jumpItems comparison label) := by
  cases comparison with
  | none => exact straight_nil.await labels
  | some op => exact await_jump member _

/-- The condition `x` in the state `s'` after a conjunction was compiled from the state `s` on. -/
def Joins (rule : Translation Expr) (s : Compiler) (x : Condition) (s' : Compiler) : Prop :=
  ∃ items, s.Extends s' items ∧ Items.Await [.fails] items ∧ x.onTrue = .fresh ∧
    x.onFalse = .pending (Items.slots .fails s.code.pc items) ∧
    (s'.Clean → s.Clean ∧ ∃ c op, s.tokens.upcoming = c.lexemes ++ s'.tokens.upcoming ∧
      x.comparison = some op ∧ Conjunction.Compiles rule s.table c items op s'.table)

theorem conjunction_joins (inner : Realizes expr Expr.lexemes rule) (valid : s.Valid) :
    Ensures (conjunction expr) s (Joins rule s) := by
  refine .bind (comparison_translates inner valid) ?_
  rintro op s1 ⟨items1, extends1, straight1, accepted1⟩
  refine repeatWhile_keeps ?step ⟨items1, extends1, straight1.await _, rfl, ?slots, fun clean => ?first⟩
  case slots => rw [slots_eq_nil (straight1.without _)]; rfl
  case first =>
    obtain ⟨clean, c, reads, rfl, compiles⟩ := accepted1 clean
    exact ⟨clean, ⟨c, []⟩, c.relation, by simpa [Conjunction.lexemes] using reads, rfl, .single compiles⟩
  case step =>
    rintro x s2 ⟨items, extends2, await, onTrue, onFalse, accepted⟩ more
    refine .bind (jumpIfFalse_does extends2.valid onFalse) ?_
    rintro y s3 ⟨jumped, jump⟩
    refine .bind (scan_mark jump.valid fun clean => (jump.peek_kind clean).trans
      (by simpa using more)) fun _ s4 scanned => ?_
    have middle := jump.trans scanned
    refine .bind (comparison_translates inner middle.valid) ?_
    rintro op s5 ⟨items2, extends3, straight2, accepted2⟩
    subst jumped
    refine .pure ⟨items ++ jumpItems (x.comparison.map .negate) .fails ++ items2,
      ?_, ?_, onTrue, ?_, fun clean => ?_⟩
    · have whole := (extends2.trans middle.toExtends).trans extends3
      simpa using whole
    · simp only [await_append]
      exact ⟨⟨await, await_jumpItems _ (by simp)⟩, straight2.await _⟩
    · rw [slots_append, slots_append, slots_eq_nil (straight2.without _),
        extends2.pc, List.nil_append]
    · obtain ⟨clean, c, reads2, rfl, compare⟩ := accepted2 clean
      obtain ⟨clean, reads1, _⟩ := middle.accepted clean
      obtain ⟨clean, front, last, reads, comparison, compiles⟩ := accepted clean
      refine ⟨clean, ⟨front.first, front.rest ++ [c]⟩, c.relation, ?_, rfl, ?_⟩
      · simp [reads, reads1, reads2, Conjunction.lexemes]
      · rw [middle.table] at compare
        rw [comparison]
        exact .and compiles compare

/-- The condition `x` in the state `s'` after alternatives were compiled from the state `s` on. -/
def Alternates (rule : Translation Expr) (s : Compiler) (x : Condition) (s' : Compiler) : Prop :=
  ∃ items, s.Extends s' items ∧ Items.Await [.fails, .holds] items ∧
    x.onTrue = .pending (Items.slots .holds s.code.pc items) ∧
    x.onFalse = .pending (Items.slots .fails s.code.pc items) ∧
    (s'.Clean → s.Clean ∧ ∃ c op, s.tokens.upcoming = c.lexemes ++ s'.tokens.upcoming ∧
      x.comparison = some op ∧ Disjunction.Compiles rule s.table s.code.pc c items op s'.table)

theorem condition_alternates (inner : Realizes expr Expr.lexemes rule) (valid : s.Valid) :
    Ensures (condition expr) s (Alternates rule s) := by
  refine .bind (conjunction_joins inner valid) ?_
  rintro first s1 ⟨items1, extends1, await1, _, onFalse1, accepted1⟩
  refine repeatWhile_keeps ?step
    ⟨items1, extends1, await1.mono (by simp), ?slots, onFalse1, fun clean => ?first⟩
  case slots => rw [slots_eq_nil (await1 .holds (by simp))]; rfl
  case first =>
    obtain ⟨clean, c, op, reads, comparison, compiles⟩ := accepted1 clean
    exact ⟨clean, ⟨c, []⟩, op, by simpa [Disjunction.lexemes] using reads, comparison,
      .single compiles⟩
  case step =>
    rintro x s2 ⟨items, extends2, await, onTrue, onFalse, accepted⟩ more
    refine .bind (jumpIfTrue_does extends2.valid onTrue) ?_
    rintro y s3 ⟨jumped, jump⟩
    refine .bind (scan_mark jump.valid fun clean => (jump.peek_kind clean).trans
      (by simpa using more)) fun _ s4 scanned => ?_
    have middle := jump.trans scanned
    rw [List.append_nil] at middle
    have front := extends2.trans middle.toExtends
    have waiting : y.onFalse = .pending (slots .fails s.code.pc
        (items ++ jumpItems x.comparison .holds)) := by
      rw [jumped, onFalse, slots_append, slots_eq_nil
        (await_jumpItems x.comparison (List.mem_singleton_self .holds) .fails (by decide))]
      rfl
    rw [waiting]
    refine .bind (here_extends valid front (by decide)) ?_
    rintro _ s5 ⟨resolved, table, tokens, reporter⟩
    refine .bind (conjunction_joins inner resolved.valid) ?_
    rintro next s6 ⟨items2, extends3, await2, _, onFalse2, accepted2⟩
    refine .pure ⟨_, resolved.trans extends3, ?_, ?_, ?_, fun clean => ?_⟩
    · refine await_append.mpr ⟨.resolve ?_ _, await2.mono (by simp)⟩
      refine await_append.mpr ⟨await.mono (by simp), await_jumpItems _ (by simp)⟩
    · rw [slots_append, slots_eq_nil (await2 .holds (by simp)),
        Items.slots_resolve_ne (by decide), Items.slots_append, ← extends2.pc, jumped]
      rfl
    · rw [slots_append, slots_eq_nil (without_resolve_self _ _ _), ← resolved.pc, List.append_nil]
      exact onFalse2
    · obtain ⟨clean, c, op, reads2, comparison2, compiles2⟩ := accepted2 clean
      have clean : s4.Clean := by simpa only [Clean, reporter] using clean
      obtain ⟨clean, reads1, _⟩ := middle.accepted clean
      obtain ⟨clean, others, last, reads, comparison, compiles⟩ := accepted clean
      rw [tokens] at reads2
      rw [table, middle.table] at compiles2
      refine ⟨clean, ⟨others.first, others.rest ++ [c]⟩, op, ?_, comparison2, ?_⟩
      · simp [reads, reads1, reads2, Disjunction.lexemes]
      · rw [front.pc, comparison]
        simpa [jumpItems, Nat.add_assoc] using Disjunction.Compiles.or compiles compiles2

theorem guarded_ensures (inner : Realizes expr Expr.lexemes rule) (valid : s.Valid) :
    Ensures (guarded expr) s fun onFalse s' => ∃ items, s.Extends s' items ∧
      Items.Await [.fails] items ∧ onFalse = .pending (Items.slots .fails s.code.pc items) ∧
      (s'.Clean → s.Clean ∧ ∃ c front op,
        s.tokens.upcoming = c.lexemes ++ .mark .rightParen :: s'.tokens.upcoming ∧
        items = guardItems s.code.pc front op ∧
        Disjunction.Compiles rule s.table s.code.pc c front op s'.table) := by
  refine .bind (condition_alternates inner valid) ?_
  rintro x s1 ⟨items, extends1, await, onTrue, onFalse, accepted⟩
  refine .bind (jumpIfFalse_does extends1.valid onFalse) ?_
  rintro y s2 ⟨jumped, jump⟩
  have front := extends1.trans jump.toExtends
  have waiting : y.onTrue = .pending (Items.slots .holds s.code.pc
      (items ++ jumpItems (x.comparison.map .negate) .fails)) := by
    rw [jumped, onTrue, Items.slots_append, Items.slots_eq_nil
      (await_jumpItems _ (List.mem_singleton_self .fails) .holds (by decide))]
    rfl
  rw [waiting]
  refine .bind (here_extends valid front (by decide)) ?_
  rintro _ s3 ⟨resolved, table, tokens, reporter⟩
  refine .expectMark resolved.valid fun s4 closed => ?_
  refine .pure ⟨_, resolved.trans closed.toExtends, ?_, ?_, fun clean => ?_⟩
  · rw [List.append_nil]
    refine .resolve (Items.await_append.mpr ⟨await.mono ?_, await_jumpItems _ ?_⟩) _
    · simp
    · simp
  · rw [List.append_nil, Items.slots_resolve_ne (by decide), Items.slots_append, ← extends1.pc,
      jumped]
  · obtain ⟨clean, reads2, _⟩ := closed.accepted clean
    have clean : s2.Clean := by simpa only [Clean, reporter] using clean
    obtain ⟨clean, reads1, _⟩ := jump.accepted clean
    obtain ⟨clean, c, op, reads, comparison, compiles⟩ := accepted clean
    rw [tokens] at reads2
    refine ⟨clean, c, items, op, ?_, ?_, ?_⟩
    · simp [reads, reads1, reads2]
    · simp [comparison, guardItems, jumpItems, front.pc, Nat.add_assoc]
    · rw [closed.table, table, jump.table]
      exact compiles

end Compile

end MicroJava

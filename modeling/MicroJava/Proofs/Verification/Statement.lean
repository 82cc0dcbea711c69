import MicroJava.Proofs.Translation.Layout
import MicroJava.Proofs.Verification.Expression

/-! # Statements on stacks of types

Every statement begins and ends with an empty stack, and so does every comparison of a condition
with the jump behind it. All jumps lead to such places. `Stmt.Marked` tells where the statements of
a method begin and end, also those inside of others.
-/

namespace MicroJava

open Syntax Items List MicroJava.Frame

theorem Comparison.isOrder_negate (op : Comparison) : op.negate.isOrder = op.isOrder := by
  cases op <;> rfl

/-! ## Places where the stack is empty -/

namespace Frame

/-- Whether the stack is empty at some addresses in items that begin at an address, and all jumps
lead to these addresses or to others of which `outside` holds. -/
structure Settles (v : Frame) (base : Nat) (items : List Item) (marks : List Nat)
    (outside : Nat → Prop) : Prop where
  clear : v.Clear base items marks
  leads : Leads [] (fun adr => adr ∈ marks ∨ outside adr) items

variable {v : Frame} {base target : Nat} {items front back : List Item} {marks more : List Nat}
  {outside other : Nat → Prop}

theorem Settles.mono (settles : v.Settles base items marks outside)
    (known : ∀ adr, outside adr → adr ∈ marks ∨ other adr) : v.Settles base items marks other :=
  ⟨settles.clear, settles.leads.mono (Subset.refl _) fun adr leads =>
    leads.elim .inl (known adr)⟩

theorem Settles.append (first : v.Settles base front marks outside)
    (second : v.Settles (base + size front) back more other) :
    v.Settles base (front ++ back) (marks ++ more) fun adr => outside adr ∨ other adr := by
  refine ⟨first.clear.append second.clear, leads_append.mpr ⟨?_, ?_⟩⟩
  · refine first.leads.mono (Subset.refl _) fun adr leads => ?_
    exact leads.elim (fun member => .inl (mem_append_left _ member)) fun out => .inr (.inl out)
  · refine second.leads.mono (Subset.refl _) fun adr leads => ?_
    exact leads.elim (fun member => .inl (mem_append_right _ member)) fun out => .inr (.inr out)

/-- Items that leave an empty stack, with a jump behind them. -/
theorem Typed.settles {when? : Option Comparison}
    (typed : v.Typed [] (items ++ [.jump when? (.address target)]) []) (straight : Straight items)
    (base : Nat) :
    v.Settles base (items ++ [.jump when? (.address target)])
      [base, base + size (items ++ [.jump when? (.address target)])] (· = target) := by
  refine ⟨.of_typed typed, leads_append.mpr ⟨straight.leads, ?_⟩⟩
  exact leads_jump.mpr (.inr rfl)

private theorem settles_jump (base target : Nat) :
    v.Settles base [.jump none (.address target)] [base, base + 3] (· = target) :=
  ⟨.of_typed (Takes.typed ⟨rfl, fun _ => .jump⟩), leads_jump.mpr (.inr rfl)⟩

end Frame

namespace Syntax

open SymbolTable

section

variable {levels fails target base : Nat} {final : Comparison → Item} {t t' : SymbolTable}
  {items : List Item} {v : Frame} {u : SymbolTable} (sound : v.Sound) (describes : v.Describes u)

include sound describes

/-! ## Conditions -/

/-- A comparison pushes two values that can be compared. -/
theorem Compare.Compiles.typed {c : Compare}
    (compiles : Compare.Compiles (Expr.Compiles levels) t c items t') (standing : t.Standing)
    (last : t'.Widens u) (unselected : u.Unselected c.uses) :
    ∃ a b : StackType, v.Typed [] items [b, a] ∧ a.comparable v.table.types b = true ∧
      (c.relation.isOrder = true → a = .scalar) := by
  have typing := Expr.Compiles.leaves sound describes levels
  obtain @⟨left, relation, right, items1, x, t1, items2, y, _, left_, valued, right_, valued',
    comparable, ordered⟩ := compiles
  obtain ⟨first, second⟩ := unselected_append.mp unselected
  have agrees := describes.agreesAt last
  have leftPushes := typing.pushes sound left_ standing (right_.outline.1.widens.trans last)
    first valued
  have rightPushes := typing.pushes sound right_ (left_.outline.1.widens.standing standing)
    last second valued'
  have standing1 := left_.outline.1.widens.standing standing
  have standing' := right_.outline.1.widens.standing standing1
  have leftValue : t'.Values x :=
    right_.outline.1.widens.values (Expr.Compiles.values left_ standing)
  have isValue := leftValue valued left_.outline.2
  have isValue' := Expr.Compiles.values right_ standing1 valued' right_.outline.2
  refine ⟨v.stackType x.type, v.stackType y.type, (leftPushes []).append (rightPushes _),
    sound.comparable (describes.isValue last isValue) (describes.isValue last isValue')
      (agrees.keeps.comparable agrees.typeCount comparable), fun isOrder => ?_⟩
  have isOrder : relation.isOrder = true := isOrder
  have notReference : t'.types.isReference x.type = false := by simpa [isOrder] using ordered
  rcases standing'.wellTyped.based.isValue_cases isValue with scalar | isReference
  · exact stackType_scalar sound scalar
  · rw [notReference] at isReference
    cases isReference

/-- Every comparison, with the jump behind it, leaves the stack as empty as it finds it. -/
theorem Compare.Compiles.settles {c : Compare} {op : Comparison}
    (compare : Compare.Compiles (Expr.Compiles levels) t c items t') (standing : t.Standing)
    (last : t'.Widens u) (unselected : u.Unselected c.uses) (same : op.isOrder = c.relation.isOrder)
    (base target : Nat) :
    ∃ marks, v.Settles base (items ++ [.jump (some op) (.address target)]) marks (· = target) := by
  obtain ⟨a, b, typed, comparable, ordered⟩ :=
    compare.typed sound describes standing last unselected
  refine ⟨_, Typed.settles (typed.behind ?_)
    compare.outlines.straight base⟩
  exact ⟨rfl, fun _ => .compare rfl comparable (same ▸ ordered)⟩

theorem Compare.Chain.settles {cs : List Compare}
    (chain : Compare.Chain (Expr.Compiles levels) fails final t cs items t')
    (jumps : ∀ op, ∃ op' : Comparison, final op = .jump (some op') (.address target) ∧
      op'.isOrder = op.isOrder) (standing : t.Standing) (last : t'.Widens u)
    (unselected : u.Unselected (cs.flatMap Compare.uses)) (base : Nat) :
    ∃ marks, v.Settles base items marks fun adr => adr = fails ∨ adr = target := by
  induction chain generalizing base with
  | @last t c items t' compare =>
    obtain ⟨op, isJump, same⟩ := jumps c.relation
    rw [isJump]
    obtain ⟨marks, settles⟩ := compare.settles sound describes standing last
      (by simpa using unselected) same base target
    exact ⟨marks, settles.mono fun adr leads => .inr (.inr leads)⟩
  | @and t c items t1 rest items' t' compare more ih =>
    rw [flatMap_cons, unselected_append] at unselected
    obtain ⟨marks, settles⟩ := compare.settles sound describes standing
      ((Compare.Chain.widens more).trans last) unselected.1 c.relation.isOrder_negate base
      fails
    obtain ⟨marks', settles'⟩ := ih (compare.outlines.widens.standing standing) last
      unselected.2 (base + size (items ++ [.jump (some c.relation.negate) (.address fails)]))
    have all := settles.append settles'
    rw [append_assoc, singleton_append] at all
    refine ⟨_, all.mono ?_⟩
    rintro adr (isFails | known)
    · exact .inr (.inl isFails)
    · exact .inr known

theorem Conjunction.Chain.settles {holds : Nat} {cs : List Conjunction}
    (chain : Conjunction.Chain (Expr.Compiles levels) holds fails final t base cs items t')
    (jumps : ∀ op, ∃ op' : Comparison, final op = .jump (some op') (.address target) ∧
      op'.isOrder = op.isOrder) (standing : t.Standing) (last : t'.Widens u)
    (unselected : u.Unselected (cs.flatMap Conjunction.uses)) :
    ∃ marks, v.Settles base items marks fun adr => adr = holds ∨ adr = fails ∨ adr = target := by
  induction chain with
  | @last t base c items t' compares =>
    obtain ⟨marks, settles⟩ := compares.settles sound describes jumps standing last
      (by simpa [Conjunction.uses] using unselected) base
    exact ⟨marks, settles.mono fun adr known => .inr (.inr known)⟩
  | @or t base c items t1 rest items' t' compares more ih =>
    rw [flatMap_cons, unselected_append] at unselected
    obtain ⟨marks, settles⟩ := compares.settles sound describes
      (fun op => ⟨op, rfl, rfl⟩) standing ((Conjunction.Chain.widens more).trans last)
      unselected.1 base
    obtain ⟨marks', settles'⟩ := ih
      ((Compare.Chain.widens compares).standing standing) last unselected.2
    refine ⟨_, (settles.append settles').mono ?_⟩
    rintro adr ((rfl | isHolds) | known)
    · exact .inl (mem_append_left _ settles.clear.end_mem)
    · exact .inr (.inl isHolds)
    · exact .inr known

theorem Disjunction.Guards.settles {c : Disjunction}
    (guards : c.Guards levels t base items fails t') (standing : t.Standing) (last : t'.Widens u)
    (unselected : u.Unselected c.uses) : ∃ marks, v.Settles base items marks (· = fails) := by
  obtain ⟨marks, settles⟩ := Conjunction.Chain.settles sound describes guards
    (fun op => ⟨op.negate, rfl, op.isOrder_negate⟩) standing last unselected
  refine ⟨marks, settles.mono ?_⟩
  rintro adr (rfl | known | known)
  · exact .inl settles.clear.end_mem
  · exact .inr known
  · exact .inr known

/-! ## Statements without other ones inside -/

omit sound describes in
/-- A statement without other ones inside has no jumps. -/
theorem Stmt.CompilesIn.straight {s : Stmt} {returns : TypeId}
    (compiles : Stmt.CompilesIn (Stmt.Compiles 0) (Expr.Compiles levels) ⟨returns, false⟩ t base s
      items t') : Straight items := by
  have finish : Straight returnItems := by simp [returnItems, CodeBuffer.finishItems]
  cases compiles with
  | assign designator value =>
    simp [designator.outlines.1.straight, value.outline.1.straight]
  | @update _ op _ _ _ _ _ _ _ designator value =>
    have plain : op.item.isJump = false := by rcases op with op | op <;> cases op <;> rfl
    simp [designator.outlines.1.straight, value.outline.1.straight, plain]
  | step designator => simp [designator.outlines.1.straight]
  | call designator _ _ arguments =>
    refine straight_append.mpr ⟨?_, by split <;> simp⟩
    simp [designator.outlines.1.straight, arguments.outlines.straight]
  | ifThen _ then_ => exact then_.elim
  | ifElse _ then_ => exact then_.elim
  | loop _ body_ => exact body_.elim
  | leave inLoop => cases inLoop
  | yieldNothing => exact finish
  | yieldValue value => simp [value.outline.1.straight, finish]
  | read designator => split <;> simp [designator.outlines.1.straight]
  | print value => split <;> simp [value.outline.1.straight]
  | block sequence =>
    cases sequence with
    | nil => simp
    | cons first => exact first.elim
  | empty => simp

omit sound describes in
theorem UpdateOp.takes (op : UpdateOp) (σ : List StackType) :
    v.Takes (.scalar :: .scalar :: σ) op.item (.scalar :: σ) := by
  rcases op with op | op <;> cases op <;> exact takes_bare (.arithmetic rfl) _

/-- A statement leaves the stack as empty as it finds it. -/
theorem Stmt.CompilesIn.typed {s : Stmt}
    (compiles : Stmt.CompilesIn (Stmt.Compiles 0) (Expr.Compiles levels) ⟨v.returns, false⟩ t base s
      items t') (standing : t.Standing) (last : t'.Widens u) (unselected : u.Unselected s.uses) :
    v.Typed [] items [] := by
  have typing := Expr.Compiles.leaves sound describes levels
  cases compiles with
  | assign designator value storable valued assignable =>
    rw [Stmt.uses, unselected_append] at unselected
    have widens := value.outline.1.widens
    obtain ⟨held, holds, typed⟩ := designator.leaves sound typing describes standing
      (widens.trans last) unselected.1
    have standing1 := designator.outlines.1.widens.standing standing
    have pushes := typing.pushes sound value standing1 last unselected.2 valued
    have isValue := Expr.Compiles.values value standing1 valued value.outline.2
    have stored := holds.store sound storable (describes.isValue last isValue)
      (describes.assignable last assignable) []
    have all := ((typed []).append (pushes _)).append stored
    simpa using all
  | @update _ op _ _ _ _ _ _ _ designator value storable valued ints =>
    rw [Stmt.uses, unselected_append] at unselected
    have widens := value.outline.1.widens
    obtain ⟨held, holds, typed⟩ := designator.leaves sound typing describes standing
      (widens.trans last) unselected.1
    have standing1 := designator.outlines.1.widens.standing standing
    have loaded := holds.load sound (Operand.valued_of_isVariable storable)
      (Operand.kind_of_isVariable storable) (held ++ [])
    have pushes := (typing.pushes sound value standing1 last unselected.2 valued).scalar sound
      (.inl ints.2) (.scalar :: (held ++ []))
    have stored := holds.store sound storable (.inr .int)
      (ints.1 ▸ TypeTable.assignable_refl _) []
    rw [stackType_scalar sound (.inl ints.1)] at loaded
    rw [stackType_scalar sound (.inl rfl)] at stored
    have all := ((((((typed []).append (holds.keep storable [])).append loaded).append
      pushes).behind (UpdateOp.takes op _)).append stored)
    simpa using all
  | @step _ up _ _ _ designator storable int =>
    rw [Stmt.uses] at unselected
    obtain ⟨held, holds, typed⟩ := designator.leaves sound typing describes standing last unselected
    exact (typed []).append (holds.step sound storable int up [])
  | call designator isMethod method arguments =>
    rw [Stmt.uses, unselected_append, unselected_append] at unselected
    have typed := typed_call sound typing describes designator isMethod method arguments standing
      last unselected.1.2 []
    refine typed.append ?_
    unfold result
    split
    · exact .nil
    · exact (takes_bare .pop _).typed
  | ifThen _ then_ => exact then_.elim
  | ifElse _ then_ => exact then_.elim
  | loop _ body_ => exact body_.elim
  | leave inLoop => cases inLoop
  | yieldNothing void =>
    exact .cons (takes_bare .exit _) (takes_bare (.returnNothing void) _).typed
  | yieldValue value valued result assignable =>
    rw [Stmt.uses] at unselected
    have pushes := typing.pushes sound value standing last unselected valued
    have isValue := Expr.Compiles.values value standing valued value.outline.2
    have fits := sound.fits (describes.isValue last isValue) (describes.assignable last assignable)
    exact (pushes []).append
      (.cons (takes_bare .exit _) (takes_bare (.returnValue result fits) _).typed)
  | @read _ _ x _ designator storable readable =>
    rw [Stmt.uses] at unselected
    obtain ⟨held, holds, typed⟩ := designator.leaves sound typing describes standing last unselected
    have isValue : v.table.types.IsValue x.type := by
      rcases readable with int | char
      · exact int ▸ .inr .int
      · exact char ▸ .inr .char
    have stored := holds.store sound storable isValue (TypeTable.assignable_refl _) []
    rw [stackType_scalar sound readable] at stored
    refine (typed []).append (.cons ?_ stored)
    split
    · exact takes_bare (.read (.inr rfl)) _
    · exact takes_bare (.read (.inl rfl)) _
  | print value valued printable =>
    rw [Stmt.uses] at unselected
    have pushes := typing.pushes sound value standing last unselected valued
    refine (pushes.scalar sound printable []).append (.cons (takes_const v _ _) ?_)
    refine Takes.typed ?_
    split
    · exact takes_bare (.print (.inl rfl)) _
    · exact takes_bare (.print (.inr rfl)) _
  | block sequence =>
    cases sequence with
    | nil => exact .nil
    | cons first => exact first.elim
  | empty => exact .nil

end

/-! ## Where statements begin and end -/

/-- The items of statements as in `Stmt.Layout`, with the addresses where the statements and those
inside of them begin and end. -/
inductive Stmt.Marked (returns : TypeId) : (exit : Option Nat) → SymbolTable → Nat → List Stmt →
    List Item → SymbolTable → (bounds : List Nat) → Prop where
  | nil {exit t base} : Marked returns exit t base [] [] t [base]
  | simple {exit t base s items₁ t₁ rest items₂ t' bounds} {levels : Nat}
      (first : Stmt.CompilesIn (Stmt.Compiles 0) (Expr.Compiles levels) ⟨returns, false⟩ t base s
        items₁ t₁)
      (more : Marked returns exit t₁ (base + size items₁) rest items₂ t' bounds) :
      Marked returns exit t base (s :: rest) (items₁ ++ items₂) t' (base :: bounds)
  | block {exit t base body items₁ t₁ inside rest items₂ t' bounds}
      (body_ : Marked returns exit t base body items₁ t₁ inside)
      (more : Marked returns exit t₁ (base + size items₁) rest items₂ t' bounds) :
      Marked returns exit t base (.block body :: rest) (items₁ ++ items₂) t'
        (base :: inside ++ bounds)
  | leave {exit t base rest items t' bounds}
      (more : Marked returns (some exit) t (base + 3) rest items t' bounds) :
      Marked returns (some exit) t base (.leave :: rest) (.jump none (.address exit) :: items) t'
        (base :: bounds)
  | ifThen {exit t base c guard t₁ body items₁ t₂ inside rest items₂ t' bounds} {levels : Nat}
      (condition : c.Guards levels t base guard (base + size guard + size items₁) t₁)
      (then_ : Marked returns exit t₁ (base + size guard) [body] items₁ t₂ inside)
      (more : Marked returns exit t₂ (base + size guard + size items₁) rest items₂ t'
        bounds) :
      Marked returns exit t base (.ifThen c body :: rest) (guard ++ (items₁ ++ items₂)) t'
        (base :: inside ++ bounds)
  | ifElse {exit t base c guard t₁ body items₁ t₂ inside other items₂ t₃ inside' rest items₃ t'
        bounds} {levels : Nat}
      (condition : c.Guards levels t base guard (base + size guard + size items₁ + 3) t₁)
      (then_ : Marked returns exit t₁ (base + size guard) [body] items₁ t₂ inside)
      (else_ : Marked returns exit t₂ (base + size guard + size items₁ + 3) [other]
        items₂ t₃ inside')
      (more : Marked returns exit t₃
        (base + size guard + size items₁ + 3 + size items₂) rest items₃ t'
        bounds) :
      Marked returns exit t base (.ifElse c body other :: rest)
        (guard ++ (items₁ ++ .jump none (.address
          (base + size guard + size items₁ + 3 + size items₂)) ::
          (items₂ ++ items₃))) t' (base :: inside ++ inside' ++ bounds)
  | loop {exit t base c guard t₁ body items₁ t₂ inside rest items₂ t' bounds} {levels : Nat}
      (condition : c.Guards levels t base guard (base + size guard + size items₁ + 3) t₁)
      (body_ : Marked returns (some (base + size guard + size items₁ + 3)) t₁
        (base + size guard) [body] items₁ t₂ inside)
      (more : Marked returns exit t₂ (base + size guard + size items₁ + 3) rest items₂
        t' bounds) :
      Marked returns exit t base (.loop c body :: rest)
        (guard ++ (items₁ ++ .jump none (.address base) :: items₂)) t' (base :: inside ++ bounds)

/-- The stack is empty where statements begin and end, and wherever jumps lead to. -/
theorem Stmt.Layout.settles {v : Frame} {u : SymbolTable} (sound : v.Sound)
    (describes : v.Describes u) {exit : Option Nat} {t t' : SymbolTable} {base : Nat}
    {body : List Stmt} {items : List Item}
    (layout : Stmt.Layout v.returns exit t base body items t') (standing : t.Standing)
    (last : t'.Widens u) (unselected : u.Unselected (Stmt.listUses body)) :
    ∃ bounds marks, Stmt.Marked v.returns exit t base body items t' bounds ∧ bounds ⊆ marks ∧
      v.Settles base items marks (exit = some ·) := by
  induction layout with
  | nil => exact ⟨_, _, .nil, Subset.refl _, .nil, by simp [Leads]⟩
  | @simple _ _ _ _ _ _ _ _ _ levels first more ih =>
    rw [Stmt.listUses, unselected_append] at unselected
    have contained := Stmt.CompilesIn.contained (Stmt.Compiles.contained 0) first
    have typed := first.typed sound describes standing (more.widens.trans last) unselected.1
    obtain ⟨bounds, marks, marked, known, settles⟩ :=
      ih (contained.widens.standing standing) last unselected.2
    refine ⟨_, _, .simple first marked, cons_subset_cons _ known, .block typed settles.clear, ?_⟩
    refine leads_append.mpr ⟨?_, settles.leads.mono (Subset.refl _) ?_⟩
    · exact first.straight.leads
    · exact fun adr leads => leads.imp_left (mem_cons_of_mem _)
  | block body_ more ihBody ih =>
    rw [Stmt.listUses, Stmt.uses, unselected_append] at unselected
    obtain ⟨inside, marks1, marked1, known1, settles1⟩ := ihBody standing
      (more.widens.trans last) unselected.1
    obtain ⟨bounds, marks, marked, known, settles⟩ := ih (body_.widens.standing standing) last
      unselected.2
    have start := settles1.clear.start_mem
    refine ⟨_, _, .block marked1 marked, by grind, (settles1.append settles).mono ?_⟩
    exact fun adr exits => .inr (exits.elim id id)
  | leave more ih =>
    rw [Stmt.listUses, unselected_append] at unselected
    obtain ⟨bounds, marks, marked, known, settles⟩ := ih standing last unselected.2
    refine ⟨_, _, .leave marked, by grind, ((settles_jump _ _).append settles).mono ?_⟩
    rintro adr (rfl | exits)
    · exact .inr rfl
    · exact .inr exits
  | ifThen condition then_ more ihThen ih =>
    rw [Stmt.listUses, Stmt.uses, unselected_append, unselected_append] at unselected
    have standing1 := condition.widens.standing standing
    obtain ⟨front, guarded⟩ := condition.settles sound describes standing
      (then_.widens.trans (more.widens.trans last)) unselected.1.1
    obtain ⟨inside, marks1, marked1, known1, settles1⟩ := ihThen standing1
      (more.widens.trans last) (by simpa [Stmt.listUses] using unselected.1.2)
    obtain ⟨bounds, marks, marked, known, settles⟩ := ih (then_.widens.standing standing1) last
      unselected.2
    have start := guarded.clear.start_mem
    refine ⟨_, _, .ifThen condition marked1 marked, by grind,
      (guarded.append (settles1.append settles)).mono ?_⟩
    rintro adr (rfl | exits | exits)
    · exact .inl (by simp [settles.clear.start_mem])
    · exact .inr exits
    · exact .inr exits
  | @ifElse exit t base c guard t1 body items1 t2 other items2 t3 rest items3 t' levels condition
      then_ else_ more ihThen ihElse ih =>
    rw [Stmt.listUses, Stmt.uses, unselected_append, unselected_append, unselected_append]
      at unselected
    have standing1 := condition.widens.standing standing
    have standing2 := then_.widens.standing standing1
    obtain ⟨front, guarded⟩ := condition.settles sound describes standing
      (then_.widens.trans (else_.widens.trans (more.widens.trans last))) unselected.1.1.1
    obtain ⟨inside, marks1, marked1, known1, settles1⟩ := ihThen standing1
      (else_.widens.trans (more.widens.trans last))
      (by simpa [Stmt.listUses] using unselected.1.1.2)
    obtain ⟨inside', marks2, marked2, known2, settles2⟩ := ihElse standing2
      (more.widens.trans last) (by simpa [Stmt.listUses] using unselected.1.2)
    obtain ⟨bounds, marks, marked, known, settles⟩ := ih (else_.widens.standing standing2) last
      unselected.2
    have start := guarded.clear.start_mem
    have jump := settles_jump (v := v) (base + size guard + size items1)
      (base + size guard + size items1 + 3 + size items2)
    refine ⟨_, _, .ifElse condition marked1 marked2 marked, by grind,
      (guarded.append (settles1.append (jump.append (settles2.append settles)))).mono ?_⟩
    rintro adr (rfl | exits | rfl | exits | exits)
    · exact .inl (by simp [settles2.clear.start_mem])
    · exact .inr exits
    · exact .inl (by simp [settles.clear.start_mem])
    · exact .inr exits
    · exact .inr exits
  | @loop exit t base c guard t1 body items1 t2 rest items2 t' levels condition body_ more ihBody
      ih =>
    rw [Stmt.listUses, Stmt.uses, unselected_append, unselected_append] at unselected
    have standing1 := condition.widens.standing standing
    obtain ⟨front, guarded⟩ := condition.settles sound describes standing
      (body_.widens.trans (more.widens.trans last)) unselected.1.1
    obtain ⟨inside, marks1, marked1, known1, settles1⟩ := ihBody standing1
      (more.widens.trans last) (by simpa [Stmt.listUses] using unselected.1.2)
    obtain ⟨bounds, marks, marked, known, settles⟩ := ih (body_.widens.standing standing1) last
      unselected.2
    have start := guarded.clear.start_mem
    have jump := settles_jump (v := v) (base + size guard + size items1) base
    refine ⟨_, _, .loop condition marked1 marked, by grind,
      (guarded.append (settles1.append (jump.append settles))).mono ?_⟩
    rintro adr (rfl | exits | rfl | exits)
    · exact .inl (by simp [settles.clear.start_mem])
    · obtain rfl := Option.some.inj exits
      exact .inl (by simp [settles.clear.start_mem])
    · exact .inl (by simp [start])
    · exact .inr exits

end Syntax

end MicroJava

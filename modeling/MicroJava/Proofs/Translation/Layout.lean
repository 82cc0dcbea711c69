import MicroJava.Proofs.Translation.Condition

/-! # Statements with every label resolved

Once the address behind the innermost loop is known, the items of a statement lie one after the
other with no label left. `Stmt.Layout` describes the items of a sequence of statements in this form,
from the first statement on, with the address of each part.
-/

namespace MicroJava.Syntax

open Items

/-- The items of a condition whose last jump leads to `fails`. Where the condition holds, control
goes on behind them. -/
def Disjunction.Guards (levels : Nat) (c : Disjunction) (t : SymbolTable) (base : Nat)
    (items : List Item) (fails : Nat) (t' : SymbolTable) : Prop :=
  Conjunction.Chain (Expr.Compiles levels) (base + Items.size items) fails
    (fun op => .jump (some op.negate) (.address fails)) t base c.conjunctions items t'

/-- The items of statements of a method that returns a type. A `break` leads to `exit`, if there is a
loop around the statements. A statement with no other one in it has the items that it compiles
to. -/
inductive Stmt.Layout (returns : TypeId) :
    (exit : Option Nat) → SymbolTable → Nat → List Stmt → List Item → SymbolTable → Prop where
  | nil {exit t base} : Layout returns exit t base [] [] t
  | simple {exit t base s items₁ t₁ rest items₂ t'} {levels : Nat}
      (first : Stmt.CompilesIn (Stmt.Compiles 0) (Expr.Compiles levels) ⟨returns, false⟩ t base s
        items₁ t₁)
      (more : Layout returns exit t₁ (base + Items.size items₁) rest items₂ t') :
      Layout returns exit t base (s :: rest) (items₁ ++ items₂) t'
  | block {exit t base body items₁ t₁ rest items₂ t'}
      (body_ : Layout returns exit t base body items₁ t₁)
      (more : Layout returns exit t₁ (base + Items.size items₁) rest items₂ t') :
      Layout returns exit t base (.block body :: rest) (items₁ ++ items₂) t'
  | leave {exit t base rest items t'}
      (more : Layout returns (some exit) t (base + 3) rest items t') :
      Layout returns (some exit) t base (.leave :: rest) (.jump none (.address exit) :: items) t'
  | ifThen {exit t base c guard t₁ body items₁ t₂ rest items₂ t'} {levels : Nat}
      (condition : c.Guards levels t base guard (base + Items.size guard + Items.size items₁) t₁)
      (then_ : Layout returns exit t₁ (base + Items.size guard) [body] items₁ t₂)
      (more : Layout returns exit t₂ (base + Items.size guard + Items.size items₁) rest items₂ t') :
      Layout returns exit t base (.ifThen c body :: rest) (guard ++ (items₁ ++ items₂)) t'
  | ifElse {exit t base c guard t₁ body items₁ t₂ other items₂ t₃ rest items₃ t'} {levels : Nat}
      (condition : c.Guards levels t base guard (base + Items.size guard + Items.size items₁ + 3) t₁)
      (then_ : Layout returns exit t₁ (base + Items.size guard) [body] items₁ t₂)
      (else_ : Layout returns exit t₂ (base + Items.size guard + Items.size items₁ + 3) [other]
        items₂ t₃)
      (more : Layout returns exit t₃
        (base + Items.size guard + Items.size items₁ + 3 + Items.size items₂) rest items₃ t') :
      Layout returns exit t base (.ifElse c body other :: rest)
        (guard ++ (items₁ ++ .jump none (.address
          (base + Items.size guard + Items.size items₁ + 3 + Items.size items₂)) ::
          (items₂ ++ items₃))) t'
  | loop {exit t base c guard t₁ body items₁ t₂ rest items₂ t'} {levels : Nat}
      (condition : c.Guards levels t base guard (base + Items.size guard + Items.size items₁ + 3) t₁)
      (body_ : Layout returns (some (base + Items.size guard + Items.size items₁ + 3)) t₁
        (base + Items.size guard) [body] items₁ t₂)
      (more : Layout returns exit t₂ (base + Items.size guard + Items.size items₁ + 3) rest items₂
        t') :
      Layout returns exit t base (.loop c body :: rest)
        (guard ++ (items₁ ++ .jump none (.address base) :: items₂)) t'

variable {t t1 t' : SymbolTable} {base : Nat} {items items1 items2 : List Item} {op : Comparison}
  {place : Place} {exit : Option Nat} {stmtRule : StmtTranslation} {levels : Nat}

/-- A condition once it is known where it fails. -/
theorem Disjunction.Compiles.guards {c : Disjunction}
    (condition : c.Compiles (Expr.Compiles levels) t base items op t') (fails : Nat) :
    ∃ guard, resolve .fails fails (guardItems base items op) = guard ∧
      base + size items + 3 = base + size guard ∧
      c.Guards levels t base guard fails t' ∧
      ∀ label adr, label ≠ .fails → resolve label adr guard = guard := by
  have chain := guardItems_chain condition fails
  rw [← size_resolve .fails fails] at chain
  refine ⟨_, rfl, by simp [Nat.add_assoc], chain, fun label adr different => ?_⟩
  apply resolve_eq_self
  rw [without_resolve_ne (Ne.symm different)]
  exact (guardItems_leads condition).2.without (by simpa using different)

/-- A statement waits only for the end of its loop. -/
theorem Stmt.Compiles.without {s : Stmt} (compiles : Stmt.Compiles levels place t base s items t')
    {label : OpenLabel} (different : label ≠ .exit) : Without label items := by
  refine (Stmt.Compiles.contained levels compiles).leads.without ?_
  unfold Place.exits
  split <;> simp [different]

/-- What it means that a relation for statements gives a layout, whatever follows. -/
def LaysOut (rule : StmtTranslation) : Prop :=
  ∀ ⦃place t base s items t₁ exit rest items₂ t'⦄, rule place t base s items t₁ →
    place.inLoop = Option.isSome exit →
    Stmt.Layout place.returns exit t₁ (base + Items.size items) rest items₂ t' →
    Stmt.Layout place.returns exit t base (s :: rest)
      (Items.resolve .exit (exit.getD 0) items ++ items₂) t'

theorem Stmt.Sequence.layout (rule : LaysOut stmtRule) {body : List Stmt}
    (sequence : Stmt.Sequence stmtRule place t base body items t')
    (loops : place.inLoop = exit.isSome) :
    Stmt.Layout place.returns exit t base body (resolve .exit (exit.getD 0) items) t' := by
  induction sequence with
  | nil => exact .nil
  | cons first more ih =>
    rw [resolve_append]
    exact rule first loops ih

theorem Stmt.Layout.of_simple (levels : Nat) {s : Stmt} {rest : List Stmt}
    (first : Stmt.CompilesIn (Stmt.Compiles 0) (Expr.Compiles levels) ⟨place.returns, false⟩ t base s
      items t1) (more : Stmt.Layout place.returns exit t1 (base + size items) rest items2 t') :
    Stmt.Layout place.returns exit t base (s :: rest)
      (resolve .exit (exit.getD 0) items ++ items2) t' := by
  have contained := Stmt.CompilesIn.contained (Stmt.Compiles.contained 0) first
  rw [resolve_eq_self (contained.leads.without (by simp [Place.exits]))]
  exact .simple first more

theorem Stmt.Compiles.layout (levels : Nat) : LaysOut (Stmt.Compiles levels) := by
  induction levels with
  | zero => exact fun _ _ _ _ _ _ _ _ _ _ impossible => impossible.elim
  | succ levels ih =>
    intro place t base s items t1 exit rest items2 t' compiles loops more
    cases compiles with
    | assign designator value storable valued assignable =>
      exact .of_simple levels (.assign designator value storable valued assignable) more
    | update designator value storable valued ints =>
      exact .of_simple levels (.update designator value storable valued ints) more
    | step designator storable int => exact .of_simple levels (.step designator storable int) more
    | call designator isMethod method arguments =>
      exact .of_simple levels (.call designator isMethod method arguments) more
    | yieldNothing void => exact .of_simple levels (.yieldNothing void) more
    | yieldValue value valued result assignable =>
      exact .of_simple levels (.yieldValue value valued result assignable) more
    | read designator storable readable =>
      exact .of_simple levels (.read designator storable readable) more
    | print value valued printable => exact .of_simple levels (.print value valued printable) more
    | empty => exact .of_simple levels .empty more
    | block sequence => exact .block (sequence.layout ih loops) (by simpa using more)
    | leave inLoop =>
      obtain ⟨adr, rfl⟩ := Option.isSome_iff_exists.mp (loops.symm.trans inLoop)
      exact .leave (by simpa using more)
    | @ifThen c body front op t2 branch _ condition then_ =>
      obtain ⟨guard, resolved, size, guards, fixed⟩ :=
        condition.guards (base + size front + 3 + size branch)
      have laid := ih then_ loops .nil
      simp only [size_resolve, size_append, size_guardItems, ← Nat.add_assoc] at more
      rw [resolve_append, resolve_append, resolved, fixed _ _ (by decide),
        resolve_eq_self (Stmt.Compiles.without then_ (by decide)), List.append_assoc]
      rw [size] at guards laid more
      rw [← size_resolve .exit (exit.getD 0) branch] at guards more
      exact .ifThen guards (by simpa using laid) more
    | @ifElse c body other front op t2 branch t3 branch' _ condition then_ else_ =>
      obtain ⟨guard, resolved, size, guards, fixed⟩ :=
        condition.guards (base + size front + 3 + size branch + 3)
      have laid := ih then_ loops .nil
      have laid' := ih else_ loops .nil
      simp only [size_resolve, size_append, size_guardItems, size_cons,
        Item.size_jump, size_nil, Nat.add_zero, ← Nat.add_assoc] at more
      simp only [resolve_append, resolved, fixed _ _ (by decide : OpenLabel.finish ≠ .fails),
        fixed _ _ (by decide : OpenLabel.exit ≠ .fails),
        resolve_eq_self (Stmt.Compiles.without then_ (by decide : OpenLabel.fails ≠ .exit)),
        resolve_eq_self (Stmt.Compiles.without then_ (by decide : OpenLabel.finish ≠ .exit)),
        resolve_eq_self (Stmt.Compiles.without else_ (by decide : OpenLabel.finish ≠ .exit)),
        resolve_cons, resolve_nil, Item.resolve, Destination.resolve, reduceCtorEq,
        ↓reduceIte, List.append_assoc, List.cons_append, List.nil_append]
      rw [size] at guards laid laid' more ⊢
      rw [← size_resolve .exit (exit.getD 0) branch] at guards laid' more ⊢
      rw [← size_resolve .exit (exit.getD 0) branch'] at more ⊢
      exact .ifElse guards (by simpa using laid) (by simpa using laid') more
    | @loop c body front op t2 branch _ condition body_ =>
      obtain ⟨guard, resolved, size, guards, fixed⟩ :=
        condition.guards (base + size front + 3 + size branch + 3)
      generalize behind : base + Items.size front + 3 + Items.size branch + 3 = adr at *
      have laid := ih body_ (show true = (some adr).isSome from rfl) .nil
      have inBody : resolve .fails adr (resolve .exit adr branch) =
          resolve .exit adr branch := by
        apply resolve_eq_self
        rw [without_resolve_ne (by decide)]
        exact Stmt.Compiles.without body_ (by decide)
      simp only [size_resolve, size_append, size_guardItems, size_cons,
        Item.size_jump, size_nil, Nat.add_zero, ← Nat.add_assoc, behind] at more
      have inGuard : resolve .fails adr (resolve .exit adr (guardItems base front op)) =
          guard := by
        rw [Items.resolve_comm (by decide), resolved, fixed _ _ (by decide)]
      simp only [resolve_append, inBody, inGuard, fixed _ _ (by decide : OpenLabel.exit ≠ .fails),
        resolve_eq_self (without_resolve_self .exit adr branch), resolve_cons,
        resolve_nil, Item.resolve, Destination.resolve, List.append_assoc, List.cons_append,
        List.nil_append]
      rw [size, ← size_resolve .exit adr branch] at behind
      rw [size, List.append_nil, Option.getD_some] at laid
      generalize resolve .exit adr branch = inside at *
      subst behind
      exact .loop guards laid more

theorem Disjunction.Guards.widens {c : Disjunction} {fails : Nat}
    (guards : c.Guards levels t base items fails t') : t.Widens t' :=
  Conjunction.Chain.widens guards

/-- Statements declare nothing. -/
theorem Stmt.Layout.widens {returns : TypeId} {body : List Stmt}
    (layout : Stmt.Layout returns exit t base body items t') : t.Widens t' := by
  induction layout with
  | nil => exact .refl
  | simple first more ih =>
    rename_i levels
    have contained := Stmt.CompilesIn.contained (Stmt.Compiles.contained 0) first
    exact contained.widens.trans ih
  | block body_ more ihBody ih => exact ihBody.trans ih
  | leave more ih => exact ih
  | ifThen condition then_ more ihThen ih => exact (condition.widens.trans ihThen).trans ih
  | ifElse condition then_ else_ more ihThen ihElse ih =>
    exact ((condition.widens.trans ihThen).trans ihElse).trans ih
  | loop condition body_ more ihBody ih => exact (condition.widens.trans ihBody).trans ih

end MicroJava.Syntax

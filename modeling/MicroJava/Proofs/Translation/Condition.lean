import MicroJava.Proofs.Translation.Outline

/-! # Conditions with every label resolved

Once the addresses are known where a condition holds and where it fails, its items are comparisons
one after the other, each followed by one jump. `Conjunction.Chain` describes them from the first
comparison on, which is the order in which they run.
-/

namespace MicroJava

open Items

theorem Comparison.holds_negate (op : Comparison) (a b : Int32) :
    op.negate.holds a b = !op.holds a b := by
  cases op <;>
    simp [Comparison.negate, Comparison.holds, ← decide_not, Int32.not_lt, Int32.not_le, bne]

namespace Items

variable {labels : List OpenLabel} {inside : Nat → Prop} {items : List Item} {label other : OpenLabel}

theorem Leads.without (leads : Leads labels inside items) (absent : label ∉ labels) :
    Without label items := by
  intro i member
  cases i with
  | plain | call => rfl
  | jump when? target =>
    have within := leads when? target member
    cases target with
    | address adr => rfl
    | waiting other =>
      simp only [Item.waitsFor, beq_eq_false_iff_ne]
      rintro rfl
      exact absent within

/-- Two labels can be resolved in either order. -/
theorem resolve_comm (different : label ≠ other) (adr target : Nat) (items : List Item) :
    resolve label adr (resolve other target items) =
      resolve other target (resolve label adr items) := by
  simp only [resolve, List.map_map]
  refine List.map_congr_left fun i _ => ?_
  cases i with
  | plain | call => rfl
  | jump when? destination =>
    cases destination with
    | address => rfl
    | waiting third =>
      by_cases first : label = third <;> by_cases second : other = third <;>
        simp_all [Item.resolve, Destination.resolve]

end Items

namespace Syntax

/-- Comparisons of which each but the last jumps to an address if it does not hold. What follows
the last one is given. -/
inductive Compare.Chain (nested : Translation Expr) (fails : Nat) (final : Comparison → Item) :
    SymbolTable → List Compare → List Item → SymbolTable → Prop where
  | last {t c items t'} (compare : Compare.Compiles nested t c items t') :
      Chain nested fails final t [c] (items ++ [final c.relation]) t'
  | and {t c items t₁ rest items' t'} (compare : Compare.Compiles nested t c items t₁)
      (more : Chain nested fails final t₁ rest items' t') :
      Chain nested fails final t (c :: rest)
        (items ++ .jump (some c.relation.negate) (.address fails) :: items') t'

/-- Alternatives of which each but the last jumps to where the condition holds if it does, and to
the next one otherwise. -/
inductive Conjunction.Chain (nested : Translation Expr) (holds fails : Nat)
    (final : Comparison → Item) :
    SymbolTable → Nat → List Conjunction → List Item → SymbolTable → Prop where
  | last {t base c items t'}
      (compares : Compare.Chain nested fails final t c.compares items t') :
      Chain nested holds fails final t base [c] items t'
  | or {t base c items t₁ rest items' t'}
      (compares : Compare.Chain nested (base + Items.size items)
        (fun op => .jump (some op) (.address holds)) t c.compares items t₁)
      (more : Chain nested holds fails final t₁ (base + Items.size items) rest items' t') :
      Chain nested holds fails final t base (c :: rest) (items ++ items') t'

variable {nested : Translation Expr} {t t1 t' : SymbolTable} {items items2 : List Item}
  {holds fails base : Nat} {op : Comparison} {final : Comparison → Item}

theorem Compare.Chain.append {cs : List Compare} {c : Compare}
    (chain : Compare.Chain nested fails (fun op => .jump (some op.negate) (.address fails)) t cs
      items t1) (compare : Compare.Compiles nested t1 c items2 t') (final : Comparison → Item) :
    Compare.Chain nested fails final t (cs ++ [c]) (items ++ (items2 ++ [final c.relation])) t' := by
  induction chain with
  | last first => simpa using .and first (.last compare)
  | and first _ ih => simpa using .and first (ih compare)

theorem Conjunction.Compiles.chain [Fact (Outlining nested)] {c : Conjunction}
    (compiles : Conjunction.Compiles nested t c items op t') (fails : Nat)
    (final : Comparison → Item) :
    Compare.Chain nested fails final t c.compares
      (resolve .fails fails items ++ [final op]) t' := by
  induction compiles generalizing final with
  | single compare =>
    rw [resolve_eq_self (compare.outlines.straight.without _)]
    exact .last compare
  | and front compare ih =>
    have chain := (ih fun op => .jump (some op.negate) (.address fails)).append compare final
    simpa [resolve_eq_self (compare.outlines.straight.without _), Item.resolve,
      Destination.resolve, Conjunction.compares] using chain

theorem Conjunction.Chain.append {cs : List Conjunction} {c : Conjunction} {next : Nat}
    (chain : Conjunction.Chain nested holds next (fun op => .jump (some op) (.address holds)) t base
      cs items t1) (behind : next = base + size items)
    (compares : Compare.Chain nested fails final t1 c.compares items2 t') :
    Conjunction.Chain nested holds fails final t base (cs ++ [c]) (items ++ items2) t' := by
  induction chain with
  | last first =>
    subst behind
    exact .or first (.last compares)
  | or first _ ih =>
    have rest := ih (by simpa [Nat.add_assoc] using behind) compares
    simpa using .or first rest

theorem Disjunction.Compiles.chain [Fact (Outlining nested)] {c : Disjunction}
    (compiles : c.Compiles nested t base items op t') (holds fails : Nat)
    (final : Comparison → Item) :
    Conjunction.Chain nested holds fails final t base c.conjunctions
      (resolve .fails fails (resolve .holds holds items) ++ [final op]) t' := by
  induction compiles generalizing fails final with
  | single conjunction =>
    rw [resolve_eq_self ((conjunction.leads).2.without (by simp))]
    exact .last (conjunction.chain fails final)
  | @or _ _ items1 op1 _ _ items2 op2 _ front conjunction ih =>
    have others := ih (base + size items1 + 3) fun op => .jump (some op) (.address holds)
    have chain := others.append (by simp [Nat.add_assoc]) (conjunction.chain fails final)
    rw [resolve_append, resolve_append,
      resolve_comm (by decide : OpenLabel.holds ≠ .fails),
      resolve_eq_self (without_resolve_self _ _ _),
      resolve_eq_self ((conjunction.leads).2.without (by simp))]
    simpa [Item.resolve, Destination.resolve, Disjunction.conjunctions] using chain

/-- The items of a condition, its last jump included, once its labels are resolved. -/
theorem guardItems_chain [Fact (Outlining nested)] {c : Disjunction}
    (compiles : c.Compiles nested t base items op t') (fails : Nat) :
    Conjunction.Chain nested (base + size (guardItems base items op)) fails
      (fun op => .jump (some op.negate) (.address fails)) t base c.conjunctions
      (resolve .fails fails (guardItems base items op)) t' := by
  have chain := compiles.chain (base + size items + 3) fails
    fun op => .jump (some op.negate) (.address fails)
  rw [size_guardItems, ← Nat.add_assoc]
  simpa [guardItems, Item.resolve, Destination.resolve] using chain

/-- What the jump behind the last comparison of a conjunction does: control goes to `holds` if the
comparison holds and to `fails` otherwise. One of the two is what follows the jump. -/
def Decides (final : Comparison → Item) (next holds fails : Nat) : Prop :=
  (final = fun op => .jump (some op) (.address holds)) ∧ fails = next ∨
    (final = fun op => .jump (some op.negate) (.address fails)) ∧ holds = next

theorem Compare.Chain.widens [Fact (Outlining nested)] {cs : List Compare}
    (chain : Compare.Chain nested fails final t cs items t') : t.Widens t' := by
  induction chain with
  | last compare => exact compare.outlines.widens
  | and compare _ ih => exact compare.outlines.widens.trans ih

theorem Conjunction.Chain.widens [Fact (Outlining nested)] {cs : List Conjunction}
    (chain : Conjunction.Chain nested holds fails final t base cs items t') : t.Widens t' := by
  induction chain with
  | last compares => exact compares.widens
  | or compares _ ih => exact (compares.widens).trans ih

end Syntax

end MicroJava

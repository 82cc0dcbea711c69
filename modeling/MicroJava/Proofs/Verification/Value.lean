import MicroJava.Proofs.Verification.Operand

/-! # Types of expressions

What a symbol table knows where the statements of a method stand. There the operand of an expression
has a type that the table knows: what names, fields and elements are declared of, what methods
return, or the type of `null`.
-/

namespace MicroJava

open Operand

namespace SymbolTable

variable {t u : SymbolTable} {x : Operand} {limit : Nat}

/-! ## Tables in method bodies -/

/-- Whether all methods have their parameters, also those that are predeclared. -/
def Callables (t : SymbolTable) : Prop := ∀ id, (t.entity id).kind = .method → t.Callable id

theorem Prepared.callables (prepared : t.Prepared) (based : t.Based) : t.Callables := by
  intro id isMethod
  rcases Nat.lt_or_ge id.index initial.entities.size with early | late
  · have same := based.entity id (decide_eq_true early)
    have all : ∀ i < initial.entities.size, (initial.entity ⟨i⟩).kind = .method →
        (initial.entity ⟨i⟩).parameters.length = (initial.entity ⟨i⟩).parameterCount ∧
          (initial.entity ⟨i⟩).hasVarArgs = false ∧
          ∀ parameter ∈ (initial.entity ⟨i⟩).parameters, initial.contains parameter = true := by
      decide
    rw [same] at isMethod
    obtain ⟨count, fixed, parameters⟩ := all id.index early isMethod
    refine ⟨by rw [same]; exact count, fun parameter member => ?_, fun collects => ?_⟩
    · rw [same] at member
      exact based.contains (parameters parameter member)
    · rw [same] at collects
      have impossible := fixed.symm.trans collects
      cases impossible
  · exact prepared id ⟨isMethod, late⟩

/-- What a table knows where statements stand. -/
structure Standing (t : SymbolTable) : Prop where
  wellTyped : t.WellTyped Limits.supported.fields
  callables : t.Callables
  /-- Names mean what is declared, and no predeclared variable. -/
  visible : ∀ name id, t.lookup? name = some id → t.contains id = true ∧
    ((t.entity id).kind = .var → initial.entities.size ≤ id.index)

theorem Widens.standing (widens : t.Widens u) (standing : t.Standing) : u.Standing where
  wellTyped := widens.preserves (fun _ elem typed => typed.array elem) standing.wellTyped
  callables id isMethod := by
    rw [widens.entity] at isMethod
    exact (standing.callables id isMethod).agrees widens.persists.agrees
      (contains_of_method isMethod)
  visible name id found := by
    rw [widens.lookup] at found
    rw [widens.entity, widens.contains]
    exact standing.visible name id found

/-! ## Types that a table knows -/

/-- Whether the value of an operand has a type that the table knows. -/
def Values (t : SymbolTable) (x : Operand) : Prop :=
  x.isValueless = false → x.kind ≠ .method → t.types.IsValue x.type

theorem Widens.values (widens : t.Widens u) (values : t.Values x) : u.Values x :=
  fun valued notMethod => (values valued notMethod).imp_right widens.persists.keeps.isData

/-- Constants are numbers or `null`. -/
theorem WellTyped.constant {id : EntityId} (wellTyped : t.WellTyped limit)
    (inside : t.contains id = true) (isCon : (t.entity id).kind = .con) :
    ((t.entity id).type = .int ∨ (t.entity id).type = .char) ∨
      (t.entity id).type = .null ∧ (t.entity id).value = 0 := by
  rcases Nat.lt_or_ge id.index initial.entities.size with early | late
  · rw [wellTyped.based.entity id (decide_eq_true early)] at isCon ⊢
    have all : ∀ i < initial.entities.size, (initial.entity ⟨i⟩).kind = .con →
        (initial.entity ⟨i⟩).type = .null ∧ (initial.entity ⟨i⟩).value = 0 := by decide
    exact .inr (all id.index early isCon)
  · have sound := wellTyped.sound id late inside
    rw [Entity.Sound, isCon] at sound
    exact .inl sound

end SymbolTable

namespace Syntax

open SymbolTable

variable {t t' : SymbolTable} {levels : Nat} {items : List Item} {x y : Operand}

theorem Selector.Apply.values {selectors : List Selector}
    (applies : Selector.Apply (Expr.Compiles levels) t x selectors items y t')
    (standing : t.Standing) (values : t.Values x) : t'.Values y := by
  induction applies with
  | nil => exact values
  | @field t x name id rest items y t' isClass valued found more ih =>
    have member : id ∈ t.types.fields x.type := by simpa using (Scope.mem_of_search found).1
    obtain ⟨i, at_⟩ := List.mem_iff_getElem?.mp member
    have isVar := (standing.wellTyped.field _ i id at_).1
    exact ih standing fun _ _ => .inr (standing.wellTyped.isData_var isVar)
  | @index t x e items1 index t1 rest items2 y t' storable inner_ int valued isArray more ih =>
    have widens := inner_.outline.1.widens
    have standing1 := widens.standing standing
    have isValue := widens.values values (valued_of_isVariable storable)
      (kind_of_isVariable storable)
    have isData := isValue.resolve_left (standing1.wellTyped.based.notNull_of_isArray isArray)
    exact ih standing1 fun _ _ => .inr (standing1.wellTyped.based.isData_elem isData isArray)

theorem Designator.Compiles.values {d : Designator}
    (compiles : d.Compiles (Expr.Compiles levels) t items x t') (standing : t.Standing) :
    t'.Values x := by
  obtain @⟨_, name, id, selectors, _, _, _, found, denotes, selected⟩ := compiles
  refine selected.values standing fun valued notMethod => ?_
  obtain ⟨inside, declared⟩ := standing.visible name id found
  change t.types.IsValue (t.entity id).type
  cases kind : (t.entity id).kind with
  | con =>
    rcases standing.wellTyped.constant inside kind with (int | char) | ⟨null, _⟩
    · exact int ▸ .inr .int
    · exact char ▸ .inr .char
    · exact .inl null
  | var => exact .inr (standing.wellTyped.isData_var ⟨declared kind, inside, kind⟩)
  | method => exact absurd (kindOf_eq_method.mpr kind) notMethod
  | type | program => exact absurd (by simp [kindOf, kind]) denotes

theorem Factor.Compiles.values
    (inner : ∀ ⦃t e items x t'⦄, Expr.Compiles levels t e items x t' → t.Standing → t'.Values x)
    {f : Factor} (compiles : f.Compiles (Expr.Compiles levels) t items x t')
    (standing : t.Standing) : t'.Values x := by
  cases compiles with
  | @value t d items x t' designator =>
    intro valued _
    unfold asValue at valued ⊢
    split at valued
    · cases valued
    · next notMethod =>
      rw [if_neg notMethod]
      exact designator.values standing valued notMethod
  | @call t d items1 x t1 id args items2 t' designator isMethod method result arguments =>
    intro _ _
    obtain ⟨first, names⟩ := designator.outlines
    obtain ⟨id, _, kind, _, type⟩ := names isMethod
    have typed := (first.widens.standing standing).wellTyped.isData_result kind (type ▸ result)
    rw [type_pushed, type]
    exact .inr (arguments.outlines.widens.persists.keeps.isData typed)
  | number => exact fun _ _ => .inr .int
  | character => exact fun _ _ => .inr .char
  | object found isType isClass => exact fun _ _ => .inr (standing.wellTyped.isData_type isType)
  | @array _ name id e items size t1 found isType inner_ int valued =>
    intro _ _
    have isData := inner_.outline.1.widens.persists.keeps.isData
      (standing.wellTyped.isData_type isType)
    exact .inr isData.addArray
  | paren inner_ => exact inner inner_ standing

/-- What operators make is a number. -/
theorem Chained.values {Op φ : Type} {item : Op → Item} {operand : Translation φ}
    {rest : List (Op × φ)} (chained : Chained item operand t x rest items y t')
    (values : t.Values x) : t'.Values y := by
  induction chained with
  | nil => exact values
  | cons valued inner_ ints valued' more ih =>
    refine ih fun _ _ => .inr ?_
    rw [type_pushed, ints.1]
    exact .int

/-- The operand of an expression has a type that the table knows. -/
theorem Expr.Compiles.values {e : Expr} (compiles : Expr.Compiles levels t e items x t')
    (standing : t.Standing) : t'.Values x := by
  induction levels generalizing t e items x t' with
  | zero => exact compiles.elim
  | succ levels ih =>
    have terms {t t' : SymbolTable} {e : Term} {items : List Item} {x : Operand}
        (term : e.Compiles (Expr.Compiles levels) t items x t') (standing : t.Standing) :
        t'.Values x := by
      obtain ⟨first, chained⟩ := term
      exact chained.values (first.values (fun _ _ _ _ _ => ih) standing)
    cases compiles with
    | positive first chained => exact chained.values (terms first standing)
    | negative first int valued chained =>
      refine chained.values fun _ _ => .inr ?_
      have same (x : Operand) : x.negated.type = x.type := by
        unfold negated
        split <;> rfl
      rw [same, int]
      exact .int

end Syntax

end MicroJava

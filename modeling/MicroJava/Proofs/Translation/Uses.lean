import MicroJava.Proofs.Syntax.Use
import MicroJava.Proofs.Translation.Outline

/-! # Calls and the designators they come from

The calls among the items of a phrase are, one by one and in order, the uses in the phrase that name
methods of the program. Such a name is followed by arguments that fit the parameters of the method,
or by a period: selecting a field loads what the name means, and that calls a method as it is.
-/

namespace MicroJava

open Items Operand List

/-! ## Items that call -/

/-- The address of the method that an item calls. -/
def Item.callee? : Item → Option Int
  | call adr => some adr
  | _ => none

/-- The addresses of the methods that items call, in order. -/
def Items.calls (items : List Item) : List Int := items.filterMap Item.callee?

namespace Items

variable {items front back : List Item}

@[simp] theorem calls_nil : calls [] = [] := rfl

@[simp] theorem calls_append : calls (front ++ back) = calls front ++ calls back :=
  filterMap_append

@[simp] theorem calls_call (adr : Int) : calls [.call adr] = [adr] := rfl

@[simp] theorem calls_jump (when? : Option Comparison) (target : Destination) :
    calls [.jump when? target] = [] := rfl

@[simp] theorem calls_resolve (label : OpenLabel) (adr : Nat) :
    calls (resolve label adr items) = calls items := by
  induction items with
  | nil => rfl
  | cons i items ih =>
    have first : (i.resolve label adr).callee? = i.callee? := by cases i <;> rfl
    simp only [calls, resolve_cons, filterMap_cons, first] at ih ⊢
    rw [ih]

theorem Plain.calls (plain : Plain items) : calls items = [] := by
  refine filterMap_eq_nil_iff.mpr fun i member => ?_
  have := plain i member
  cases i <;> simp_all [Item.isPlain, Item.callee?]

end Items

/-! ## What names call -/

/-- What is done where a method is called. -/
inductive Callee where
  /-- A predeclared method is compiled in place. -/
  | inline
  | method (adr : Int)
deriving DecidableEq

def Callee.adr? : Callee → Option Int
  | inline => none
  | method adr => some adr

namespace SymbolTable

variable {t u : SymbolTable} {id : EntityId} {name : String}

/-- How an entity is called, if it is a method. -/
def callee? (t : SymbolTable) (id : EntityId) : Option Callee :=
  if (t.entity id).kind = .method then
    some (if id = chr ∨ id = ord ∨ id = len then .inline else .method (t.entity id).adr)
  else none

theorem kindOf_eq_method {e : Entity} : kindOf e = .method ↔ e.kind = .method := by
  unfold kindOf
  cases e.kind with
  | var => simp only; split <;> simp
  | _ => simp

/-- How a name is called, if it means a method. -/
def calleeOf? (t : SymbolTable) (name : String) : Option Callee := (t.lookup? name).bind t.callee?

/-- The address of the method that a use calls. -/
def target? (t : SymbolTable) (u : Syntax.Use) : Option Int := (t.calleeOf? u.name).bind Callee.adr?

theorem calleeOf?_eq (found : t.lookup? name = some id) : t.calleeOf? name = t.callee? id := by
  simp [calleeOf?, found]

private theorem target?_eq (found : t.lookup? name = some id) (selectors : List Syntax.Selector)
    (args : Option Syntax.Arguments) :
    t.target? ⟨.mk name selectors, args⟩ = (t.callee? id).bind Callee.adr? := by
  simp [target?, Syntax.Use.name, Syntax.Designator.name, calleeOf?_eq found]

theorem Widens.calleeOf? (widens : t.Widens u) (name : String) :
    u.calleeOf? name = t.calleeOf? name := by
  have same (id : EntityId) : u.callee? id = t.callee? id := by
    simp only [callee?, widens.entity]
  simp only [SymbolTable.calleeOf?, widens.lookup, funext same]

theorem Widens.target? (widens : t.Widens u) : u.target? = t.target? := by
  funext use
  simp only [SymbolTable.target?, widens.calleeOf?]

end SymbolTable

namespace Syntax

open SymbolTable

private theorem append_eq_append_cons {α : Type} {front back earlier later : List α} {a : α}
    (same : front ++ back = earlier ++ a :: later) : (∃ rest, front = earlier ++ a :: rest) ∨
      ∃ rest, earlier = front ++ rest ∧ back = rest ++ a :: later := by
  rcases append_eq_append_iff.mp same with split | ⟨_ | ⟨b, rest⟩, own, others⟩
  · exact .inr split
  · exact .inr ⟨[], by simpa using own.symm, others.symm⟩
  · obtain ⟨rfl, _⟩ := cons.inj others
    exact .inl ⟨rest, own⟩

private theorem eq_of_singleton_eq {α : Type} {earlier later : List α} {a b : α}
    (same : [b] = earlier ++ a :: later) : earlier = [] ∧ a = b := by
  cases earlier with
  | nil => exact ⟨rfl, (cons.inj same).1.symm⟩
  | cons => simp at same

/-- Where the name of a method can stand in a text without problems. The table may have gained array
types until then. -/
inductive Use.Accepted (t : SymbolTable) : Use → Prop where
  /-- With arguments that fit, in number and type, the parameters of the method. -/
  | called {name id args t₁ items t₂} {levels : Nat} (found : t.lookup? name = some id)
      (widens : t.Widens t₁) (pass : Arguments.Pass (Expr.Compiles levels) t₁ id args items t₂) :
      Accepted t ⟨.mk name [], some args⟩
  /-- With the name of a field of the object that it yields. -/
  | selected {name id field other rest args t₁} (found : t.lookup? name = some id)
      (widens : t.Widens t₁) (isClass : t₁.types.isClass (t₁.entity id).type = true)
      (isField : t₁.search (t₁.types.fields (t₁.entity id).type).reverse field = some other) :
      Accepted t ⟨.mk name (.field field :: rest), args⟩

theorem Use.Accepted.earlier {t t1 : SymbolTable} {u : Use} (accepted : u.Accepted t1)
    (widens : t.Widens t1) : u.Accepted t := by
  cases accepted with
  | called found further pass =>
    rw [widens.lookup] at found
    exact .called found (widens.trans further) pass
  | selected found further isClass isField =>
    rw [widens.lookup] at found
    exact .selected found (widens.trans further) isClass isField

/-- Whether items pass the arguments of a call: those that do so come right before the items of the
call, behind the calls of the uses before it. -/
def Use.Passed (t : SymbolTable) (earlier : List Use) (name : String) (args : Arguments)
    (items : List Item) (t' : SymbolTable) : Prop :=
  ∃ id levels t₁ t₂ front passed back, t.lookup? name = some id ∧ t.Widens t₁ ∧
    args.Pass (Expr.Compiles levels) t₁ id passed t₂ ∧ t₂.Widens t' ∧
    items = front ++ passed ++ (Operand.ofEntity id (t.entity id)).result.callItems id ++ back ∧
    (t.Based → Items.calls (front ++ passed) = earlier.filterMap t.target?)

/-- Whether the calls among items are the uses of a phrase that name methods, all of them accepted. -/
structure Accounts (t : SymbolTable) (uses : List Use) (items : List Item) (t' : SymbolTable) :
    Prop where
  widens : t.Widens t'
  calls : t.Based → Items.calls items = uses.filterMap t.target?
  accepted : ∀ u ∈ uses, (t.calleeOf? u.name).isSome = true → u.Accepted t
  passed : ∀ earlier name args later, uses = earlier ++ ⟨.mk name [], some args⟩ :: later →
    (t.calleeOf? name).isSome = true → Use.Passed t earlier name args items t'

namespace Use.Passed

variable {t t1 t2 : SymbolTable} {uses earlier : List Use} {items front back : List Item}
  {name : String} {args : Arguments}

theorem before (passed : Use.Passed t earlier name args front t1) (widens : t1.Widens t2)
    (back : List Item) : Use.Passed t earlier name args (front ++ back) t2 := by
  obtain ⟨id, levels, t3, t4, first, own, last, found, further, pass, rest, rfl, calls⟩ := passed
  exact ⟨id, levels, t3, t4, first, own, last ++ back, found, further, pass, rest.trans widens,
    by simp, calls⟩

theorem behind (passed : Use.Passed t1 earlier name args back t2)
    (accounts : Accounts t uses front t1) :
    Use.Passed t (uses ++ earlier) name args (front ++ back) t2 := by
  obtain ⟨id, levels, t3, t4, first, own, last, found, further, pass, rest, rfl, calls⟩ := passed
  have widens := accounts.widens
  rw [widens.lookup] at found
  refine ⟨id, levels, t3, t4, front ++ first, own, last, found, widens.trans further, pass, rest,
    by simp [widens.entity], fun based => ?_⟩
  rw [append_assoc, calls_append, accounts.calls based, calls (widens.based based),
    widens.target?, filterMap_append]

/-- Jumps that are given their targets stand elsewhere. -/
theorem resolve (passed : Use.Passed t earlier name args items t1) (label : OpenLabel) (adr : Nat) :
    Use.Passed t earlier name args (resolve label adr items) t1 := by
  obtain ⟨id, levels, t3, t4, first, own, last, found, further, pass, rest, rfl, calls⟩ := passed
  have straight := pass.outlines.straight
  refine ⟨id, levels, t3, t4, resolve label adr first, own, resolve label adr last, found,
    further, pass, rest, ?_, fun based => ?_⟩
  · rw [resolve_append, resolve_append, resolve_append, resolve_eq_self (straight.without label),
      resolve_eq_self (Straight.without (straight_callItems _ id) label)]
  · rw [← calls based, calls_append, calls_resolve, calls_append]

end Use.Passed

namespace Accounts

variable {t t1 t2 : SymbolTable} {uses more : List Use} {items front back : List Item}

theorem plain (plain : Plain items) : Accounts t [] items t :=
  ⟨.refl, fun _ => plain.calls, by simp, by simp⟩

/-- A use that is no call with arguments. -/
theorem single {u : Use} (calls : t.Based → Items.calls items = [u].filterMap t.target?)
    (accepted : (t.calleeOf? u.name).isSome = true → u.Accepted t ∧ u.designator.selectors ≠ []) :
    Accounts t [u] items t where
  widens := .refl
  calls := calls
  accepted u' member known := by
    obtain rfl := mem_singleton.mp member
    exact (accepted known).1
  passed earlier name args later same known := by
    obtain ⟨_, rfl⟩ := eq_of_singleton_eq same
    exact absurd rfl (accepted known).2

theorem append (first : Accounts t uses front t1) (second : Accounts t1 more back t2) :
    Accounts t (uses ++ more) (front ++ back) t2 where
  widens := first.widens.trans second.widens
  calls based := by
    rw [calls_append, first.calls based, second.calls (first.widens.based based),
      first.widens.target?, filterMap_append]
  passed earlier name args later same known := by
    rcases append_eq_append_cons same with ⟨rest, own⟩ | ⟨rest, rfl, own⟩
    · exact (first.passed earlier name args rest own known).before second.widens back
    · exact (second.passed rest name args later own (by rwa [first.widens.calleeOf?])).behind first
  accepted u member known := by
    rcases mem_append.mp member with member | member
    · exact first.accepted u member known
    · rw [← first.widens.calleeOf?] at known
      exact (second.accepted u member known).earlier first.widens

theorem behind (accounts : Accounts t uses front t1) (plain : Plain back) :
    Accounts t uses (front ++ back) t1 := by
  simpa using accounts.append (.plain plain)

theorem before (accounts : Accounts t uses back t1) (plain : Plain front) :
    Accounts t uses (front ++ back) t1 := by
  simpa using (Accounts.plain plain).append accounts

section

variable (accounts : Accounts t uses items t1)

include accounts

theorem array (elem : TypeId) : Accounts t uses items (t1.addArray elem).2 :=
  ⟨accounts.widens.array elem, accounts.calls, accounts.accepted, fun _ _ _ _ same known => by
    simpa using (accounts.passed _ _ _ _ same known).before (.array elem .refl) []⟩

theorem resolve (label : OpenLabel) (adr : Nat) : Accounts t uses (resolve label adr items) t1 :=
  ⟨accounts.widens, fun based => by rw [calls_resolve]; exact accounts.calls based,
    accounts.accepted, fun _ _ _ _ same known => (accounts.passed _ _ _ _ same known).resolve ..⟩

theorem jump (when? : Option Comparison) (target : Destination) :
    Accounts t uses (items ++ [.jump when? target]) t1 where
  widens := accounts.widens
  calls based := by simp [accounts.calls based]
  accepted := accounts.accepted
  passed _ _ _ _ same known := (accounts.passed _ _ _ _ same known).before .refl _

end

end Accounts

/-! ## Expressions -/

/-- Whether a relation for expressions accounts for the calls of those that have a value. -/
def Accounting (rule : Translation Expr) : Prop :=
  ∀ ⦃t e items x t'⦄, rule t e items x t' → x.isValueless = false → Accounts t e.uses items t'

section

variable {levels : Nat} (inner : Accounting (Expr.Compiles levels))
  {t t' : SymbolTable} {items : List Item} {x y : Operand}

omit inner in
private theorem plain_load {e : Expr} (compiles : Expr.Compiles levels t e items x t') :
    Plain x.loadItems :=
  plain_loadItems compiles.outline.2

omit inner in
/-- Selectors yield no method. -/
theorem Selector.Apply.kind {nested : Translation Expr} {selectors : List Selector}
    (applies : Selector.Apply nested t x selectors items y t') (method : y.kind = .method) :
    selectors = [] := by
  induction applies with
  | nil => rfl
  | field _ _ _ more ih | index _ _ _ _ _ more ih =>
    obtain rfl := ih method
    cases more
    cases method

omit inner in
/-- Only a name by itself means a method. -/
theorem Designator.Compiles.method {nested : Translation Expr} {d : Designator} {id : EntityId}
    (compiles : d.Compiles nested t items x t') (isMethod : x.kind = .method)
    (method : x.method = some id) :
    ∃ name, d = .mk name [] ∧ items = [] ∧ t = t' ∧ x = (ofEntity id (t.entity id)).result ∧
      t.lookup? name = some id ∧ (t.entity id).kind = .method := by
  obtain @⟨_, name, other, selectors, _, _, _, found, denotes, selected⟩ := compiles
  obtain rfl := selected.kind isMethod
  cases selected
  have kind : kindOf (t.entity other) = .method := isMethod
  obtain rfl : other = id := by simpa [ofEntity, kind] using method
  exact ⟨name, rfl, rfl, rfl, rfl, found, kindOf_eq_method.mp kind⟩

include inner

theorem Selector.Apply.accounts {selectors : List Selector}
    (applies : Selector.Apply (Expr.Compiles levels) t x selectors items y t')
    (notMethod : x.kind ≠ .method) : Accounts t (Selector.listUses selectors) items t' := by
  induction applies with
  | nil => exact .plain (by simp)
  | field isClass valued found more ih =>
    rw [Selector.listUses, Selector.uses, nil_append]
    exact (ih (by simp)).before (plain_loadItems notMethod)
  | index storable inner_ int valued isArray more ih =>
    rw [Selector.listUses, Selector.uses]
    have load := plain_loadItems (kind_of_isVariable storable)
    exact (((inner inner_ valued).before load).behind (plain_load inner_)).append (ih (by simp))

/-- A designator that is no method, whatever stands behind it. -/
theorem Designator.Compiles.accounts {d : Designator}
    (compiles : d.Compiles (Expr.Compiles levels) t items x t') (notMethod : x.kind ≠ .method)
    (args : Option Arguments) : Accounts t (⟨d, args⟩ :: d.innerUses) items t' := by
  obtain @⟨_, name, id, selectors, _, _, _, found, denotes, selected⟩ := compiles
  rw [Designator.innerUses]
  by_cases method : (t.entity id).kind = .method
  · have kind : kindOf (t.entity id) = .method := kindOf_eq_method.mpr method
    cases selected with
    | nil => exact absurd kind notMethod
    | index storable => simp [ofEntity, isVariable, kind] at storable
    | field isClass valued isField more =>
      refine .append (.single (fun based => ?_) fun _ =>
        ⟨.selected found .refl isClass isField, cons_ne_nil _ _⟩) (more.accounts inner (by simp))
      have own := (based.isMethod_of_isClass method isClass).declared
      have notInline : ¬ (id = chr ∨ id = ord ∨ id = len) := by
        rintro (rfl | rfl | rfl) <;> exact absurd own (by decide)
      simp [target?_eq found, loadItems, ofEntity, kind, callee?, method, notInline, Callee.adr?]
  · have kind : (ofEntity id (t.entity id)).result.kind ≠ .method :=
      fun isMethod => method (kindOf_eq_method.mp isMethod)
    refine .append (?_ : Accounts t [_] [] t) (selected.accounts inner kind)
    refine .single (fun _ => ?_) fun known => ?_
    · simp [target?_eq found, callee?, method]
    · simp [Use.name, Designator.name, calleeOf?_eq found, callee?, method] at known

theorem Expr.Fit.accounts {parameters : List EntityId} {es : List Expr}
    (fit : Expr.Fit (Expr.Compiles levels) t parameters es items t') :
    Accounts t (Expr.listUses es) items t' := by
  induction fit with
  | nil => exact .plain (by simp)
  | cons inner_ valued fits more ih =>
    rw [Expr.listUses]
    exact ((inner inner_ valued).behind (plain_load inner_)).append ih

theorem Expr.Fill.accounts {index : Nat} {elem : TypeId} {es : List Expr}
    (fill : Expr.Fill (Expr.Compiles levels) t index elem es items t') :
    Accounts t (Expr.listUses es) items t' := by
  induction fill with
  | nil => exact .plain (by simp)
  | cons inner_ decided fits valued more ih =>
    rw [Expr.listUses]
    exact ((((inner inner_ valued).before (by simp)).behind (plain_load inner_)).behind
      (by simp)).append ih

theorem VarArguments.Collect.accounts {parameter : Option EntityId} {extra : Option VarArguments}
    (collect : VarArguments.Collect (Expr.Compiles levels) t parameter extra items t') :
    Accounts t (extra.elim [] VarArguments.uses) items t' := by
  cases collect with
  | none => exact .plain (by simp)
  | omitted => exact .plain (by simp)
  | filled fill count =>
    rw [Option.elim_some, VarArguments.uses]
    exact (fill.accounts inner).before (by simp)

theorem Arguments.Pass.accounts {id : EntityId} {args : Arguments}
    (pass : args.Pass (Expr.Compiles levels) t id items t') : Accounts t args.uses items t' := by
  obtain @⟨_, extra, _, _, _, _, fit, collect⟩ := pass
  have both := (fit.accounts inner).append (collect.accounts inner)
  clear collect
  cases extra <;> (rw [Arguments.uses]; exact both)

/-- The arguments of a method and the call behind them. -/
theorem accounts_call {d : Designator} {id : EntityId} {args : Arguments} {front : List Item}
    {t1 : SymbolTable} (designator : d.Compiles (Expr.Compiles levels) t front x t1)
    (isMethod : x.kind = .method) (method : x.method = some id)
    (pass : args.Pass (Expr.Compiles levels) t1 id items t') :
    Accounts t (d.innerUses ++ args.uses ++ [⟨d, some args⟩]) (front ++ items ++ x.callItems id)
      t' := by
  obtain ⟨name, rfl, rfl, rfl, rfl, found, isEntity⟩ := designator.method isMethod method
  have passed := pass.accounts inner
  rw [Designator.innerUses, Selector.listUses, nil_append, nil_append]
  refine ⟨passed.widens, fun based => ?_, fun u member known => ?_,
    fun earlier name' args' later same known => ?_⟩
  · have target : calls ((ofEntity id (t.entity id)).result.callItems id) =
        [(⟨.mk name [], some args⟩ : Use)].filterMap t.target? := by
      simp only [callItems, filterMap_cons, filterMap_nil, target?_eq found,
        callee?, isEntity, if_true]
      by_cases inline : id = chr ∨ id = ord ∨ id = len
      · rcases inline with rfl | rfl | rfl <;> rfl
      · obtain ⟨notChr, notOrd, notLen⟩ : id ≠ chr ∧ id ≠ ord ∧ id ≠ len := by
          simpa [not_or] using inline
        simp [notChr, notOrd, notLen, ofEntity, Callee.adr?]
    rw [calls_append, passed.calls based, target, filterMap_append]
  · rcases mem_append.mp member with member | member
    · exact passed.accepted u member known
    · obtain rfl := mem_singleton.mp member
      exact .called found .refl pass
  · rcases append_eq_append_cons same with ⟨rest, own⟩ | ⟨rest, rfl, own⟩
    · exact (passed.passed _ _ _ _ own known).before .refl _
    · obtain ⟨rfl, ⟨⟩⟩ := eq_of_singleton_eq own
      exact ⟨id, levels, t, t', [], items, [], found, .refl, pass, .refl, by simp,
        fun based => by simpa using passed.calls based⟩

theorem Factor.Compiles.accounts {f : Factor}
    (compiles : f.Compiles (Expr.Compiles levels) t items x t') (valued : x.isValueless = false) :
    Accounts t f.uses items t' := by
  cases compiles with
  | value designator =>
    rw [Factor.uses]
    refine designator.accounts inner (fun method => ?_) none
    simp [asValue, method, isValueless] at valued
  | call designator isMethod method result arguments =>
    rw [Factor.uses]
    exact accounts_call inner designator isMethod method arguments
  | number | character | object =>
    rw [Factor.uses]
    exact .plain (by simp)
  | array found isType inner_ int sized =>
    rw [Factor.uses]
    exact (((inner inner_ sized).behind (plain_load inner_)).behind (by simp)).array _
  | paren inner_ =>
    rw [Factor.uses]
    exact inner inner_ valued

omit inner in
/-- A chain of operands, each of which accounts for its calls. -/
theorem Chained.accounts {Op φ : Type} {item : Op → Item} {operand : Translation φ}
    {uses : φ → List Use} (plain : ∀ op, (item op).isPlain = true)
    (operands : ∀ ⦃t e items x t'⦄, operand t e items x t' → x.isValueless = false →
      x.kind ≠ .method ∧ Accounts t (uses e) items t') {rest : List (Op × φ)}
    (chained : Chained item operand t x rest items y t') (notMethod : x.kind ≠ .method) :
    Accounts t (rest.flatMap fun pair => uses pair.2) items t' := by
  induction chained with
  | nil => exact .plain (by simp)
  | cons valued inner_ ints valued' more ih =>
    obtain ⟨notMethod', first⟩ := operands inner_ valued'
    exact (((first.before (plain_loadItems notMethod)).behind
      (plain_loadItems notMethod')).behind (by simp [plain])).append
      (ih (by simp [pushed]))

omit inner in
/-- The first operand of a chain has a value if the chain has one. -/
theorem Chained.valued {Op φ : Type} {item : Op → Item} {operand : Translation φ}
    {rest : List (Op × φ)} (chained : Chained item operand t x rest items y t')
    (valued : y.isValueless = false) : x.isValueless = false := by
  cases chained with
  | nil => exact valued
  | cons valued => exact valued

omit inner in
theorem Factor.chainUses_eq (rest : List (MulOp × Factor)) :
    Factor.chainUses rest = rest.flatMap fun pair => pair.2.uses := by
  induction rest with
  | nil => rw [Factor.chainUses]; rfl
  | cons pair rest ih => rw [Factor.chainUses, ih]; rfl

omit inner in
theorem Term.chainUses_eq (rest : List (AddOp × Term)) :
    Term.chainUses rest = rest.flatMap fun pair => pair.2.uses := by
  induction rest with
  | nil => rw [Term.chainUses]; rfl
  | cons pair rest ih => rw [Term.chainUses, ih]; rfl

theorem Term.Compiles.accounts {e : Term}
    (compiles : e.Compiles (Expr.Compiles levels) t items x t') (valued : x.isValueless = false) :
    Accounts t e.uses items t' := by
  obtain ⟨first, chained⟩ := compiles
  rw [Term.uses, Factor.chainUses_eq]
  refine (first.accounts inner (chained.valued valued)).append
    (chained.accounts MulOp.isPlain_item ?_ first.outlines.2)
  intro t f items x t' factor valued
  exact ⟨factor.outlines.2, factor.accounts inner valued⟩

theorem Expr.CompilesIn.accounts : Accounting (Expr.CompilesIn (Expr.Compiles levels)) := by
  have terms : ∀ ⦃t e items x t'⦄, Term.Compiles (Expr.Compiles levels) t e items x t' →
      x.isValueless = false → x.kind ≠ .method ∧ Accounts t e.uses items t' :=
    fun _ _ _ _ _ term valued => ⟨term.outlines.2, term.accounts inner valued⟩
  intro t e items x t' compiles valued
  cases compiles with
  | positive first chained =>
    obtain ⟨notMethod, accounts⟩ := terms first (chained.valued valued)
    rw [Expr.uses, Term.chainUses_eq]
    exact accounts.append (chained.accounts AddOp.isPlain_item terms notMethod)
  | negative first int valued chained =>
    obtain ⟨notMethod, accounts⟩ := terms first valued
    rw [Expr.uses, Term.chainUses_eq]
    exact (accounts.behind (plain_negateItems notMethod)).append
      (chained.accounts AddOp.isPlain_item terms (kind_negated notMethod))

end

theorem Expr.Compiles.accounts (levels : Nat) : Accounting (Expr.Compiles levels) := by
  induction levels with
  | zero => exact fun _ _ _ _ _ impossible => impossible.elim
  | succ levels ih => exact Expr.CompilesIn.accounts ih

/-! ## Conditions and statements -/

section

variable {levels : Nat} {t t' : SymbolTable} {items : List Item} {op : Comparison} {base : Nat}
  {place : Place} {stmtRule : StmtTranslation}

theorem Compare.Compiles.accounts {c : Compare}
    (compiles : Compare.Compiles (Expr.Compiles levels) t c items t') :
    Accounts t c.uses items t' := by
  obtain ⟨left, valued, right, valued', _, _⟩ := compiles
  have inner := Expr.Compiles.accounts levels
  exact ((inner left valued).behind (plain_load left)).append
    ((inner right valued').behind (plain_load right))

theorem Conjunction.Compiles.accounts {c : Conjunction}
    (compiles : Conjunction.Compiles (Expr.Compiles levels) t c items op t') :
    Accounts t c.uses items t' := by
  induction compiles with
  | single compare => simpa [Conjunction.uses, Conjunction.compares] using compare.accounts
  | and front compare ih =>
    simpa [Conjunction.uses, Conjunction.compares] using (ih.jump _ _).append compare.accounts

theorem Disjunction.Compiles.accounts {c : Disjunction}
    (compiles : c.Compiles (Expr.Compiles levels) t base items op t') :
    Accounts t c.uses items t' := by
  induction compiles with
  | single conjunction =>
    simpa [Disjunction.uses, Disjunction.conjunctions] using conjunction.accounts
  | or front conjunction ih =>
    simpa [Disjunction.uses, Disjunction.conjunctions] using
      ((ih.jump _ _).resolve _ _).append conjunction.accounts

private theorem guardItems_accounts {c : Disjunction}
    (compiles : c.Compiles (Expr.Compiles levels) t base items op t') :
    Accounts t c.uses (guardItems base items op) t' :=
  (compiles.accounts.jump _ _).resolve _ _

/-- Whether a relation for statements accounts for their calls. -/
def StmtAccounting (rule : StmtTranslation) : Prop :=
  ∀ ⦃place t base s items t'⦄, rule place t base s items t' → Accounts t s.uses items t'

theorem Stmt.Sequence.accounts (rule : StmtAccounting stmtRule) {body : List Stmt}
    (sequence : Stmt.Sequence stmtRule place t base body items t') :
    Accounts t (Stmt.listUses body) items t' := by
  induction sequence with
  | nil => exact .plain (by simp)
  | cons first more ih =>
    rw [Stmt.listUses]
    exact (rule first).append ih

theorem Stmt.CompilesIn.accounts (rule : StmtAccounting stmtRule) :
    StmtAccounting (Stmt.CompilesIn stmtRule (Expr.Compiles levels)) := by
  have inner := Expr.Compiles.accounts levels
  intro place t base s items t' compiles
  cases compiles with
  | assign designator value storable valued assignable =>
    rw [Stmt.uses]
    have first := designator.accounts inner (kind_of_isVariable storable) none
    exact (first.append (inner value valued)).behind (by simp [plain_load value])
  | update designator value storable valued ints =>
    rw [Stmt.uses]
    have first := designator.accounts inner (kind_of_isVariable storable) none
    have load := plain_loadItems (kind_of_isVariable storable)
    exact (((((first.behind (by simp)).behind load).append (inner value valued)).behind
      (plain_load value)).behind (by simp [UpdateOp.isPlain_item])).behind (by simp)
  | step designator storable int =>
    rw [Stmt.uses]
    have first := designator.accounts inner (kind_of_isVariable storable) none
    exact first.behind (plain_stepItems _)
  | call designator isMethod method arguments =>
    rw [Stmt.uses]
    refine (accounts_call inner designator isMethod method arguments).behind ?_
    split <;> simp
  | ifThen condition then_ =>
    rw [Stmt.uses]
    exact ((guardItems_accounts condition).append (rule then_)).resolve _ _
  | ifElse condition then_ else_ =>
    rw [Stmt.uses]
    exact (((((guardItems_accounts condition).append (rule then_)).jump _ _).resolve _ _).append
      (rule else_)).resolve _ _
  | loop condition body_ =>
    rw [Stmt.uses]
    exact ((((guardItems_accounts condition).append (rule body_)).jump _ _).resolve _ _).resolve _ _
  | leave inLoop =>
    rw [Stmt.uses]
    exact (Accounts.plain plain_nil).jump _ _
  | yieldNothing void =>
    rw [Stmt.uses]
    exact .plain (by simp [returnItems, CodeBuffer.finishItems])
  | yieldValue value valued result assignable =>
    rw [Stmt.uses]
    exact ((inner value valued).behind (plain_load value)).behind
      (by simp [returnItems, CodeBuffer.finishItems])
  | read designator storable readable =>
    rw [Stmt.uses]
    have first := designator.accounts inner (kind_of_isVariable storable) none
    refine first.behind ?_
    split <;> simp
  | print value valued printable =>
    rw [Stmt.uses]
    refine ((inner value valued).behind (plain_load value)).behind ?_
    split <;> simp
  | block sequence =>
    rw [Stmt.uses]
    exact sequence.accounts rule
  | empty =>
    rw [Stmt.uses]
    exact .plain (by simp)

end

theorem Stmt.Compiles.accounts (levels : Nat) : StmtAccounting (Stmt.Compiles levels) := by
  induction levels with
  | zero => exact fun _ _ _ _ _ _ impossible => impossible.elim
  | succ levels ih => exact Stmt.CompilesIn.accounts ih

end Syntax

end MicroJava
